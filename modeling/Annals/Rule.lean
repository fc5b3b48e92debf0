import Annals.Error
import Annals.Matching
import Annals.Vocabulary

/-!
# Rules

When every premise of a rule holds, every conclusion holds. Variables belong to their rule. A rule
is narrowed twice: to a query, so that it concludes nothing that was not asked for, and to a fact
that matches its premises.
-/

namespace Annals

/-- Premises and what follows from them. -/
structure Rule where
  name : String
  body : List Pattern
  head : List Pattern
  deriving DecidableEq, Inhabited

namespace Rule

/-- A subclass has its instances in the class above. -/
def subClass : Rule :=
  ⟨"rdfs9", [⟨⟨"?c"⟩, Vocabulary.subClassOf, ⟨"?d"⟩⟩, ⟨⟨"?x"⟩, Vocabulary.type, ⟨"?c"⟩⟩],
    [⟨⟨"?x"⟩, Vocabulary.type, ⟨"?d"⟩⟩]⟩

/-- What a property relates, the property above it relates too. -/
def subProperty : Rule :=
  ⟨"rdfs7", [⟨⟨"?p"⟩, Vocabulary.subPropertyOf, ⟨"?q"⟩⟩, ⟨⟨"?x"⟩, ⟨"?p"⟩, ⟨"?y"⟩⟩],
    [⟨⟨"?x"⟩, ⟨"?q"⟩, ⟨"?y"⟩⟩]⟩

/-- A subclass of a subclass is a subclass. -/
def subClassTransitive : Rule :=
  ⟨"rdfs11",
    [⟨⟨"?c"⟩, Vocabulary.subClassOf, ⟨"?d"⟩⟩, ⟨⟨"?d"⟩, Vocabulary.subClassOf, ⟨"?e"⟩⟩],
    [⟨⟨"?c"⟩, Vocabulary.subClassOf, ⟨"?e"⟩⟩]⟩

/-- The rule's name, or its conclusions where it has none. -/
def label (r : Rule) : String :=
  if r.name.isEmpty then "=> " ++ " ".intercalate (r.head.map Pattern.display) else r.name

/-- The rule with the variables of a binding replaced by their values. -/
def bind (r : Rule) (b : Binding) : Rule :=
  ⟨r.name, r.body.map (·.bind b), r.head.map (·.bind b)⟩

/-- Narrows the rule to conclusions that answer a query; none if one of its conclusions cannot, or
if it has none. -/
def narrow? (r : Rule) (q : Query) : Option Rule :=
  if r.head.isEmpty then none
  else do
    let bindings ← r.head.mapM fun conclusion => conclusion.match? q.toPattern
    return r.bind (← Binding.merge? bindings)

/-- The binding under which a fact meets all premises that it matches, of which there has to be one.
It carries the fact's mark. -/
def trigger? (r : Rule) (row : Triple) : Option Binding :=
  match r.body.filterMap fun premise => premise.match? row.fact with
  | [] => none
  | bindings => (Binding.merge? bindings).map fun b => b.withMark row.mark

/-- The predicates of the premises; none if one of them is a variable. -/
def bodyPredicates? (r : Rule) : Option (List Term) :=
  if r.body.any fun premise => premise.predicate.isVariable then none
  else some (r.body.map Pattern.predicate)

/-- The facts that the conclusions become under a binding, those with a variable left aside. -/
def instances (r : Rule) (b : Binding) : List Triple := r.head.filterMap (·.instantiate? b)

/-- Why the rule cannot be of use. -/
def defect? (r : Rule) : Option EngineError :=
  if r.body.isEmpty then some (.emptyBody r.label)
  else if r.head.isEmpty then some (.emptyHead r.label)
  else none

end Rule

/-- Rules in a fixed order, each with premises and conclusions. -/
structure RuleSet where
  rules : List Rule
  sound : ∀ r ∈ rules, r.defect? = none

namespace RuleSet

/-- No rules. -/
def empty : RuleSet := ⟨[], by simp⟩

/-- Takes rules that are of use; the first one that is not is reported. -/
def ofList (rules : List Rule) : Except EngineError RuleSet :=
  match h : rules.findSome? Rule.defect? with
  | some e => .error e
  | none => .ok ⟨rules, List.findSome?_eq_none_iff.1 h⟩

/-- Rules that are of use are taken as they are. -/
theorem ofList_of_sound {rules : List Rule} (sound : ∀ r ∈ rules, r.defect? = none) :
    ofList rules = .ok ⟨rules, sound⟩ := by
  have passes : rules.findSome? Rule.defect? = none := List.findSome?_eq_none_iff.mpr sound
  unfold ofList
  split
  · next defect found => cases passes.symm.trans found
  · rfl

/-- The entailments of subclasses and subproperties. -/
def rdfs : RuleSet := ⟨[Rule.subClass, Rule.subProperty], by decide⟩

/-- Adds a rule at the end. -/
def push (s : RuleSet) (r : Rule) : Except EngineError RuleSet :=
  match h : r.defect? with
  | some e => .error e
  | none => .ok ⟨s.rules ++ [r], by simpa [or_imp, forall_and, h] using s.sound⟩

/-- The number of rules. -/
def size (s : RuleSet) : Nat := s.rules.length

/-- The rules that can contribute to a query, narrowed to it. -/
def applicable (s : RuleSet) (q : Query) : List Rule := s.rules.filterMap (·.narrow? q)

end RuleSet

end Annals
