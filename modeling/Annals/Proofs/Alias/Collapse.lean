import Annals.Alias.Collapse
import Annals.Proofs.Alias.Classes

/-!
# What aliases imply

A difference in which a term gets a name has rows that say again under one name what was said under
the other. Every row with a linked term takes all rows with it that it overlaps with, one such row
after the other. A row goes if some row takes it, whatever goes before it, so the rows that stay do
not depend on the order of the rows, and nothing is left in them that could take anything.
-/

namespace Annals

/-- Some row is of the fact. -/
def Stated (rows : List Triple) (f : Fact) : Prop := ∃ row ∈ rows, row.fact = f

/-- The term is at an end of a fact with an identity predicate. -/
def AtLink (identity : List Term) (facts : Fact → Prop) (t : Term) : Prop :=
  ∃ f, facts f ∧ f.predicate ∈ identity ∧ (f.subject = t ∨ f.object = t)

/-- One of the facts has a linked term and, at some place, a name of the term that the given fact
has there. -/
def Implied (identity : List Term) (facts : Fact → Prop) (f : Fact) : Prop :=
  ∃ g, facts g ∧ (∃ i, AtLink identity facts (g.get i)) ∧
    ∃ i, Aliased identity facts (g.get i) (f.get i)

section Links

variable {identity : List Term} {rows : List Triple} {f g : Fact} {a b : Term}

theorem mem_linkPairs :
    (a, b) ∈ linkPairs identity rows ↔ ∃ f, Stated rows f ∧ f.predicate ∈ identity ∧
      (f.subject = a ∧ f.object = b ∨ f.subject = b ∧ f.object = a) := by
  simp only [linkPairs, List.mem_flatMap, List.mem_filter, decide_eq_true_eq, List.mem_pair,
    Prod.mk.injEq]
  constructor
  · rintro ⟨row, ⟨hrow, identifies⟩, ends⟩
    refine ⟨row.fact, ⟨row, hrow, rfl⟩, identifies, ?_⟩
    rcases ends with ⟨rfl, rfl⟩ | ⟨rfl, rfl⟩
    · exact Or.inl ⟨rfl, rfl⟩
    · exact Or.inr ⟨rfl, rfl⟩
  · rintro ⟨-, ⟨row, hrow, rfl⟩, identifies, ends⟩
    refine ⟨row, ⟨hrow, identifies⟩, ?_⟩
    rcases ends with ⟨rfl, rfl⟩ | ⟨rfl, rfl⟩
    · exact Or.inl ⟨rfl, rfl⟩
    · exact Or.inr ⟨rfl, rfl⟩

theorem exists_mem_linkPairs_iff :
    (∃ b, (a, b) ∈ linkPairs identity rows) ↔ AtLink identity (Stated rows) a := by
  simp only [mem_linkPairs]
  constructor
  · rintro ⟨b, f, stated, identifies, ⟨start, -⟩ | ⟨-, stop⟩⟩
    · exact ⟨f, stated, identifies, Or.inl start⟩
    · exact ⟨f, stated, identifies, Or.inr stop⟩
  · rintro ⟨f, stated, identifies, start | stop⟩
    · exact ⟨f.object, f, stated, identifies, Or.inl ⟨start, rfl⟩⟩
    · exact ⟨f.subject, f, stated, identifies, Or.inr ⟨rfl, stop⟩⟩

theorem hasLinked_iff :
    hasLinked (linkPairs identity rows) f = true ↔
      ∃ i, AtLink identity (Stated rows) (f.get i) := by
  simp only [hasLinked, List.any_eq_true, Position.mem_all, true_and, decide_eq_true_eq,
    ← exists_mem_linkPairs_iff]
  refine exists_congr fun i => ⟨?_, ?_⟩
  · rintro ⟨⟨_, b⟩, pair, rfl⟩
    exact ⟨b, pair⟩
  · rintro ⟨b, pair⟩
    exact ⟨_, pair, rfl⟩

theorem overlap_iff :
    overlap (linkPairs identity rows) f g = true ↔
      ∃ i, Aliased identity (Stated rows) (f.get i) (g.get i) := by
  simp only [overlap, List.any_eq_true, Position.mem_all, true_and, decide_eq_true_eq,
    mem_linkPairs, Aliased]

theorem implied_iff :
    Implied identity (Stated rows) f ↔
      ∃ row ∈ rows, hasLinked (linkPairs identity rows) row.fact = true ∧
        overlap (linkPairs identity rows) row.fact f = true := by
  simp only [hasLinked_iff, overlap_iff]
  constructor
  · rintro ⟨-, ⟨row, hrow, rfl⟩, implies⟩
    exact ⟨row, hrow, implies⟩
  · rintro ⟨row, hrow, implies⟩
    exact ⟨row.fact, ⟨row, hrow, rfl⟩, implies⟩

instance (identity : List Term) (rows : List Triple) (f : Fact) :
    Decidable (Implied identity (Stated rows) f) :=
  decidable_of_iff _ implied_iff.symm

end Links

section Implied

variable {identity : List Term} {facts : Fact → Prop} {f : Fact}

/-- A fact with a linked term is implied by itself. -/
theorem Implied.of_atLink (hf : facts f) {i : Position} (linked : AtLink identity facts (f.get i)) :
    Implied identity facts f :=
  ⟨f, hf, ⟨i, linked⟩, i, Or.inl rfl⟩

/-- A fact with an identity predicate links its own terms. -/
theorem Implied.of_identity (hf : facts f) (identifies : f.predicate ∈ identity) :
    Implied identity facts f :=
  .of_atLink (i := .subject) hf ⟨f, hf, identifies, Or.inl rfl⟩

/-- Without identity predicates nothing is implied. -/
theorem not_implied_of_no_identity (none : ∀ g, facts g → g.predicate ∉ identity) :
    ¬ Implied identity facts f := by
  rintro ⟨-, -, ⟨-, g, hg, identifies, -⟩, -⟩
  exact none g hg identifies

end Implied

variable {identity : List Term} {rows others : List Triple} {row : Triple}

/-- To let rows take others with them one after the other, skipping what is gone, leaves what none
of them takes. -/
theorem foldl_drop_eq_filter (links : List (Term × Term)) (takers rows : List Triple) :
    takers.foldl (fun kept row => kept.filter fun other => !overlap links row.fact other.fact)
        rows =
      rows.filter fun other => !takers.any fun row => overlap links row.fact other.fact := by
  induction takers generalizing rows with
  | nil => simp
  | cons taker rest ih =>
    rw [List.foldl_cons, ih, List.filter_filter]
    refine List.filter_congr fun other _ => ?_
    rw [List.any_cons, Bool.not_or, Bool.and_comm]

/-- The rows that are not implied stay, in their order. -/
theorem dropAliased_eq_filter (identity : List Term) (rows : List Triple) :
    dropAliased identity rows =
      rows.filter fun other => decide (¬ Implied identity (Stated rows) other.fact) := by
  rw [dropAliased, foldl_drop_eq_filter]
  refine List.filter_congr fun other _ => ?_
  rw [Bool.eq_iff_iff, decide_eq_true_iff, Bool.not_eq_true', ← Bool.not_eq_true, implied_iff]
  simp only [List.any_eq_true, List.mem_filter, and_assoc]

theorem mem_dropAliased_iff :
    row ∈ dropAliased identity rows ↔
      row ∈ rows ∧ ¬ Implied identity (Stated rows) row.fact := by
  rw [dropAliased_eq_filter, List.mem_filter, decide_eq_true_iff]

/-- What stays has no linked term. -/
theorem not_atLink_of_mem_dropAliased (h : row ∈ dropAliased identity rows) (i : Position) :
    ¬ AtLink identity (Stated rows) (row.fact.get i) := by
  obtain ⟨hrow, apart⟩ := mem_dropAliased_iff.mp h
  exact fun linked => apart (.of_atLink ⟨row, hrow, rfl⟩ linked)

/-- What stays links no terms. -/
theorem predicate_not_mem_of_mem_dropAliased (h : row ∈ dropAliased identity rows) :
    row.fact.predicate ∉ identity := by
  obtain ⟨hrow, apart⟩ := mem_dropAliased_iff.mp h
  exact fun identifies => apart (.of_identity ⟨row, hrow, rfl⟩ identifies)

/-- Rows that link no terms all stay. -/
theorem dropAliased_eq_self (none : ∀ row ∈ rows, row.fact.predicate ∉ identity) :
    dropAliased identity rows = rows := by
  rw [dropAliased_eq_filter]
  refine List.filter_eq_self.mpr fun other _ => decide_eq_true (not_implied_of_no_identity ?_)
  rintro - ⟨row, hrow, rfl⟩
  exact none row hrow

theorem dropAliased_perm (h : others.Perm rows) :
    (dropAliased identity others).Perm (dropAliased identity rows) := by
  have same : Stated others = Stated rows := by
    funext f
    exact propext (exists_congr fun row => and_congr_left' h.mem_iff)
  have left : dropAliased identity others =
      others.filter fun row => decide (¬ Implied identity (Stated rows) row.fact) := by
    simp only [dropAliased_eq_filter, same]
  rw [left, dropAliased_eq_filter]
  exact h.filter _

/-- Of a list of rows those go that are implied: some row with a linked term has, at some place, the
term that they have there, or one that is linked to it. The others stay in their order. Among them
there is no linked term and no identity predicate, so that nothing else would go a second time, and
they are the same in whatever order the rows come. -/
theorem dropping_aliased_rows_is_exact (identity : List Term) (rows : List Triple) :
    dropAliased identity rows =
        rows.filter (fun row => decide (¬ Implied identity (Stated rows) row.fact)) ∧
      (∀ row ∈ dropAliased identity rows,
        (∀ i, ¬ AtLink identity (Stated rows) (row.fact.get i)) ∧
          row.fact.predicate ∉ identity) ∧
      dropAliased identity (dropAliased identity rows) = dropAliased identity rows ∧
      ∀ others, others.Perm rows →
        (dropAliased identity others).Perm (dropAliased identity rows) := by
  refine ⟨dropAliased_eq_filter identity rows, fun row hrow => ⟨?_, ?_⟩, ?_, ?_⟩
  · exact not_atLink_of_mem_dropAliased hrow
  · exact predicate_not_mem_of_mem_dropAliased hrow
  · exact dropAliased_eq_self fun row hrow => predicate_not_mem_of_mem_dropAliased hrow
  · intro others perm
    exact dropAliased_perm perm

namespace Sample

def doraIsThree : Triple := ⟨⟨⟨"dora"⟩, ⟨"age"⟩, ⟨"3"⟩⟩, .change true⟩

/-- Bob gets a second name, and Dora is called something too. -/
def secondNames : List Triple :=
  [⟨⟨⟨"rob"⟩, ⟨"called"⟩, ⟨"Robert"⟩⟩, .change true⟩, doraIsThree,
    ⟨⟨⟨"bob"⟩, ⟨"same"⟩, ⟨"rob"⟩⟩, .change true⟩,
    ⟨⟨⟨"dora"⟩, ⟨"called"⟩, ⟨"Dodo"⟩⟩, .change true⟩]

end Sample

/-- What Dora is called goes because Rob is called something, but her age stays. -/
theorem dropping_aliased_rows_of_second_names :
    Sample.doraIsThree ∈ dropAliased [⟨"same"⟩] Sample.secondNames ∧
      Sample.secondNames.reverse.Perm Sample.secondNames ∧
      dropAliased [⟨"same"⟩] Sample.secondNames = [Sample.doraIsThree] ∧
      Sample.doraIsThree.fact.predicate ∉ [(⟨"same"⟩ : Term)] ∧
      (dropAliased [⟨"same"⟩] Sample.secondNames.reverse).Perm [Sample.doraIsThree] := by
  have left : dropAliased [⟨"same"⟩] Sample.secondNames = [Sample.doraIsThree] := by decide +kernel
  have stays : Sample.doraIsThree ∈ dropAliased [⟨"same"⟩] Sample.secondNames :=
    left ▸ List.mem_singleton_self _
  obtain ⟨-, apart, -, reordered⟩ := dropping_aliased_rows_is_exact [⟨"same"⟩] Sample.secondNames
  have other := reordered Sample.secondNames.reverse (List.reverse_perm _)
  exact ⟨stays, List.reverse_perm _, left, (apart _ stays).2, left ▸ other⟩

end Annals
