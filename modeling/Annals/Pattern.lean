import Annals.Term

/-!
# Facts, patterns and queries

A pattern is three terms, any of which may be a variable. A fact is a pattern read as a statement,
and stores hold only ground ones. A query leaves each position either fixed or open. Patterns are
ordered by subject, then predicate, then object.
-/

namespace Annals

open Std

/-- A place in a statement. -/
inductive Position where
  | subject
  | predicate
  | object
  deriving DecidableEq, Repr

namespace Position

/-- The three places, in reading order. -/
def all : List Position := [subject, predicate, object]

@[simp] theorem mem_all (p : Position) : p ∈ all := by cases p <;> decide

/-- The variable that stands for an open place. -/
def openVariable : Position → Term
  | subject => ⟨"?s"⟩
  | predicate => ⟨"?p"⟩
  | object => ⟨"?o"⟩

end Position

/-- Three terms, any of which may be a variable. -/
structure Pattern where
  subject : Term
  predicate : Term
  object : Term
  deriving DecidableEq, Inhabited, Repr

/-- A statement. -/
abbrev Fact := Pattern

namespace Pattern

instance : Ord Pattern :=
  ⟨compareLex (compareOn subject) (compareLex (compareOn predicate) (compareOn object))⟩

instance : TransOrd Pattern :=
  inferInstanceAs
    (TransCmp
      (compareLex (compareOn subject) (compareLex (compareOn predicate) (compareOn object))))

instance : LawfulEqOrd Pattern where
  compare_self := ReflOrd.compare_self
  eq_of_compare {a b} h := by
    obtain ⟨hs, h⟩ := compareLex_eq_eq.1 h
    obtain ⟨hp, ho⟩ := compareLex_eq_eq.1 h
    cases a
    cases b
    simp only [mk.injEq]
    exact ⟨LawfulEqCmp.eq_of_compare hs, LawfulEqCmp.eq_of_compare hp, LawfulEqCmp.eq_of_compare ho⟩

/-- The term at a place. -/
def get (p : Pattern) : Position → Term
  | .subject => p.subject
  | .predicate => p.predicate
  | .object => p.object

/-- The pattern with another term at one place. -/
def set (p : Pattern) (t : Term) : Position → Pattern
  | .subject => { p with subject := t }
  | .predicate => { p with predicate := t }
  | .object => { p with object := t }

/-- The pattern whose terms a function of the place gives. -/
def ofFn (f : Position → Term) : Pattern := ⟨f .subject, f .predicate, f .object⟩

@[simp] theorem get_ofFn (f : Position → Term) (i : Position) : (ofFn f).get i = f i := by
  cases i <;> rfl

/-- Applies a function to the three terms. -/
def map (f : Term → Term) (p : Pattern) : Pattern := ⟨f p.subject, f p.predicate, f p.object⟩

@[simp] theorem get_map (f : Term → Term) (p : Pattern) (i : Position) :
    (p.map f).get i = f (p.get i) := by
  cases i <;> rfl

@[ext] theorem ext_get {p q : Pattern} (h : ∀ i, p.get i = q.get i) : p = q := by
  cases p
  cases q
  simp only [mk.injEq]
  exact ⟨h .subject, h .predicate, h .object⟩

/-- The three terms in reading order. -/
def terms (p : Pattern) : List Term := [p.subject, p.predicate, p.object]

theorem get_mem_terms (p : Pattern) (i : Position) : p.get i ∈ p.terms := by
  cases i <;> simp [terms, get]

theorem exists_get_of_mem_terms {p : Pattern} {t : Term} (h : t ∈ p.terms) : ∃ i, p.get i = t := by
  simp only [terms, List.mem_cons, List.not_mem_nil, or_false] at h
  rcases h with rfl | rfl | rfl
  · exact ⟨.subject, rfl⟩
  · exact ⟨.predicate, rfl⟩
  · exact ⟨.object, rfl⟩

/-- No term is a variable. -/
def isGround (p : Pattern) : Bool := p.terms.all Term.isConstant

theorem isGround_iff {p : Pattern} :
    p.isGround = true ↔ ∀ i, (p.get i).isVariable = false := by
  simp only [isGround, terms, List.all_cons, List.all_nil, Bool.and_true, Bool.and_eq_true,
    Term.isConstant, Bool.not_eq_true']
  constructor
  · rintro ⟨hs, hp, ho⟩ (_ | _ | _)
    · exact hs
    · exact hp
    · exact ho
  · intro h
    exact ⟨h .subject, h .predicate, h .object⟩

theorem isGround_mk {subject predicate object : Term} :
    (⟨subject, predicate, object⟩ : Pattern).isGround = true ↔
      subject.isVariable = false ∧ predicate.isVariable = false ∧ object.isVariable = false := by
  simp [isGround, terms, Term.isConstant]

/-- A statement is shown as its terms, separated by blanks and closed by a full stop. -/
def display (p : Pattern) : String := s!"{p.subject} {p.predicate} {p.object}."

end Pattern

/-- What is asked of a store: each place is fixed to a term or left open. -/
structure Query where
  subject : Option Term
  predicate : Option Term
  object : Option Term
  deriving DecidableEq, Inhabited, Repr

namespace Query

/-- The query that fixes nothing. -/
def any : Query := ⟨none, none, none⟩

/-- The query that fixes the given constants; a variable leaves its place open. -/
def fixing (subject predicate object : Option Term) : Query :=
  ⟨subject.filter Term.isConstant, predicate.filter Term.isConstant, object.filter Term.isConstant⟩

/-- The query for the instances of a pattern, repeated variables aside. -/
def ofPattern (p : Pattern) : Query := fixing (some p.subject) (some p.predicate) (some p.object)

/-- The term a place is fixed to. -/
def get (q : Query) : Position → Option Term
  | .subject => q.subject
  | .predicate => q.predicate
  | .object => q.object

/-- A query has constants at the places that it fixes. -/
theorem constant_of_get_fixing {subject predicate object : Option Term} {i : Position} {t : Term}
    (h : (fixing subject predicate object).get i = some t) : t.isVariable = false := by
  have kept : ∀ {u : Option Term}, u.filter Term.isConstant = some t → t.isVariable = false := by
    intro u hu
    simpa [Term.isConstant] using (Option.filter_eq_some_iff.mp hu).2
  cases i with
  | subject => exact kept h
  | predicate => exact kept h
  | object => exact kept h

@[simp] theorem get_ofPattern (p : Pattern) (i : Position) :
    (ofPattern p).get i = if (p.get i).isVariable then none else some (p.get i) := by
  have filtered : ∀ t : Term, (some t).filter Term.isConstant
      = if t.isVariable then none else some t := by
    intro t
    cases h : t.isVariable <;> simp [Option.filter, Term.isConstant, h]
  cases i <;> exact filtered _

/-- The query as a pattern, with a variable of its own for each open place. -/
def toPattern (q : Query) : Pattern := .ofFn fun i => (q.get i).getD i.openVariable

@[simp] theorem get_toPattern (q : Query) (i : Position) :
    q.toPattern.get i = (q.get i).getD i.openVariable := Pattern.get_ofFn _ i

/-- The statement has the query's term at every fixed place. -/
def admits (q : Query) (f : Fact) : Bool :=
  Position.all.all fun i => (q.get i).all fun t => decide (f.get i = t)

theorem admits_iff {q : Query} {f : Fact} :
    q.admits f = true ↔ ∀ i t, q.get i = some t → f.get i = t := by
  simp only [admits, List.all_eq_true, Position.mem_all, true_implies]
  refine forall_congr' fun i => ?_
  cases q.get i <;> simp [eq_comm]

/-- A query that a ground fact answers has constants at the places that it fixes. -/
theorem constant_of_admits {q : Query} {f : Fact} (ground : f.isGround = true)
    (admitted : q.admits f = true) (i : Position) (t : Term) (fixed : q.get i = some t) :
    t.isVariable = false := by
  rw [← admits_iff.mp admitted i t fixed]
  exact Pattern.isGround_iff.mp ground i

theorem admits_any (f : Fact) : any.admits f = true := by
  apply admits_iff.mpr
  intro i t fixed
  cases i <;> cases fixed

/-- A query is shown as its pattern. -/
def display (q : Query) : String := q.toPattern.display

end Query

end Annals
