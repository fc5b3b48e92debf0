import Annals.Proofs.Backend
import Annals.Proofs.Inference.Derivation
import Mathlib.Algebra.Group.End
import Mathlib.Data.Finset.Image
import Mathlib.Data.Fintype.Sum

/-!
# Renaming variables

A renaming is a permutation of terms that leaves constants alone. Matching, binding and narrowing
commute with it. Whoever calls the variables of a rule otherwise, no two of them alike, applies a
renaming, even where the new names are old ones in another order.
-/

namespace Annals

/-- A permutation of the variables. -/
structure Renaming where
  perm : Equiv.Perm Term
  constant : ∀ t : Term, t.isVariable = false → perm t = t

namespace Renaming

instance : CoeFun Renaming fun _ => Term → Term := ⟨fun π => π.perm⟩

variable (π : Renaming)

theorem injective : Function.Injective π := π.perm.injective

@[simp] theorem isVariable_apply (t : Term) : (π t).isVariable = t.isVariable := by
  cases h : t.isVariable with
  | false => rw [π.constant t h, h]
  | true =>
    by_contra fixed
    -- a variable that became a constant would be mistaken for it afterwards
    have same : π (π t) = π t := π.constant _ (Bool.eq_false_iff.mpr fixed)
    rw [π.injective same, h] at fixed
    exact fixed rfl

end Renaming

namespace Pattern

variable (π : Renaming)

@[simp] theorem isGround_rename (p : Pattern) : (p.map π).isGround = p.isGround := by
  rw [Bool.eq_iff_iff, isGround_iff, isGround_iff]
  simp

theorem rename_of_isGround {p : Pattern} (h : p.isGround = true) : p.map π = p := by
  apply ext_get
  intro i
  rw [get_map]
  exact π.constant _ (isGround_iff.mp h i)

end Pattern

/-- A query leaves the variables of a pattern open, whatever they are called. -/
@[simp] theorem Query.ofPattern_rename (π : Renaming) (p : Pattern) :
    ofPattern (p.map π) = ofPattern p := by
  have same : ∀ i, (ofPattern (p.map π)).get i = (ofPattern p).get i := by
    intro i
    rw [get_ofPattern, get_ofPattern, Pattern.get_map, π.isVariable_apply]
    split
    · rfl
    · next constant => rw [π.constant _ (Bool.eq_false_iff.mpr constant)]
  have fields : ∀ q : Query, q = ⟨q.get .subject, q.get .predicate, q.get .object⟩ := fun _ => rfl
  rw [fields (ofPattern (p.map π)), fields (ofPattern p), same, same, same]

namespace Binding

/-- The binding that gives the values to the renamed variables. -/
def rename (π : Renaming) (b : Binding) : Binding where
  values := b.values.map fun (x, v) => (π x, v)
  mark := b.mark
  functional := by
    rw [List.map_map]
    exact (List.map_map (g := π) (f := Prod.fst) ▸ b.functional.map π.injective)

variable {π : Renaming} {b c : Binding} {x v : Term}

@[simp] theorem rename_empty : empty.rename π = empty := rfl

@[simp] theorem rename_single : (single x v).rename π = single (π x) v := rfl

@[simp] theorem rename_withMark (m : Mark) :
    (b.withMark m).rename π = (b.rename π).withMark m := rfl

@[simp] theorem mark_rename : (b.rename π).mark = b.mark := rfl

@[simp] theorem get?_rename : (b.rename π).get? (π x) = b.get? x := by
  apply Option.ext
  intro v
  rw [get?_eq_some_iff, get?_eq_some_iff]
  simp only [rename, List.mem_map, Prod.mk.injEq]
  constructor
  · rintro ⟨⟨y, w⟩, listed, same, rfl⟩
    rwa [← π.injective same]
  · intro listed
    exact ⟨(x, v), listed, rfl, rfl⟩

theorem bind?_rename : (b.rename π).bind? (π x) v = (b.bind? x v).map (rename π) := by
  cases h : b.get? x with
  | some known =>
    have found : (b.rename π).get? (π x) = some known := get?_rename.trans h
    rw [bind?_of_some h, bind?_of_some found]
    split <;> rfl
  | none =>
    have absent : (b.rename π).get? (π x) = none := get?_rename.trans h
    obtain ⟨d, hd, values, mark⟩ := values_of_bind? (v := v) h
    obtain ⟨e, he, values', mark'⟩ := values_of_bind? (v := v) absent
    rw [hd, he, Option.map_some]
    refine congrArg some (ext_values ?_ ?_)
    · rw [values']
      simp [rename, values]
    · rw [mark', mark_rename, mark_rename, mark]

theorem bindAll?_rename (pairs : List (Term × Term)) :
    (b.rename π).bindAll? (pairs.map fun (x, v) => (π x, v)) =
      (b.bindAll? pairs).map (rename π) := by
  simp only [bindAll?]
  induction pairs generalizing b with
  | nil => rfl
  | cons pair rest ih =>
    obtain ⟨x, v⟩ := pair
    simp only [List.map_cons, List.foldlM_cons, bind?_rename]
    cases b.bind? x v with
    | none => rfl
    | some d => exact ih

theorem absorb?_rename : (b.rename π).absorb? (c.rename π) = (b.absorb? c).map (rename π) := by
  have values : (b.rename π).bindAll? (c.rename π).values = (b.bindAll? c.values).map (rename π) :=
    bindAll?_rename c.values
  rw [absorb?, absorb?, values, Option.map_map, Option.map_map]
  rfl

theorem merge?_rename (bs : List Binding) :
    merge? (bs.map (rename π)) = (merge? bs).map (rename π) := by
  have general : ∀ start : Binding, (bs.map (rename π)).foldlM absorb? (start.rename π) =
      (bs.foldlM absorb? start).map (rename π) := by
    induction bs with
    | nil => exact fun _ => rfl
    | cons b rest ih =>
      intro start
      simp only [List.map_cons, List.foldlM_cons, absorb?_rename]
      cases start.absorb? b with
      | none => rfl
      | some next => exact ih next
  exact general empty

/-- A term stands for the renamed one of what it stood for. -/
theorem resolve_rename (constants : b.OfConstants) (t : Term) :
    (b.rename π).resolve (π t) = π (b.resolve t) := by
  unfold resolve
  rw [π.isVariable_apply, get?_rename]
  split
  · cases value : b.get? t with
    | none => rfl
    | some v => exact (π.constant v (constants t v value)).symm
  · rfl

end Binding

variable {π : Renaming}

/-- Variables on the left take the same values under other names. -/
theorem Term.match?_rename (t u : Term) : (π t).match? u = (t.match? u).map (Binding.rename π) := by
  unfold match?
  rw [π.isVariable_apply]
  cases h : t.isVariable with
  | true =>
    cases u.isVariable <;> rfl
  | false =>
    rw [π.constant t h]
    simp only [Bool.false_eq_true, if_false]
    split <;> rfl

namespace Pattern

theorem match?_rename (p q : Pattern) :
    (p.map π).match? q = (p.match? q).map (Binding.rename π) := by
  simp only [match?, map, Term.match?_rename]
  cases p.subject.match? q.subject with
  | none => rfl
  | some s =>
    cases p.predicate.match? q.predicate with
    | none => rfl
    | some r =>
      cases p.object.match? q.object with
      | none => rfl
      | some o => exact Binding.merge?_rename [s, r, o]

theorem bind_rename (p : Pattern) {b : Binding} (constants : b.OfConstants) :
    (p.map π).bind (b.rename π) = (p.bind b).map π := by
  apply ext_get
  intro i
  simp only [get_bind, get_map]
  exact Binding.resolve_rename constants _

/-- A conclusion becomes the same fact under other names, if it becomes one. -/
theorem instantiate?_rename (p : Pattern) {b : Binding} (constants : b.OfConstants) :
    (p.map π).instantiate? (b.rename π) = p.instantiate? b := by
  unfold instantiate?
  rw [bind_rename p constants]
  simp only [isGround_rename]
  split
  · next ground => rw [rename_of_isGround π ground, Binding.mark_rename]
  · rfl

end Pattern

namespace Rule

/-- The rule with its variables renamed, under a name of its own. -/
def rename (π : Renaming) (name : String) (r : Rule) : Rule :=
  ⟨name, r.body.map (·.map π), r.head.map (·.map π)⟩

variable {name : String} {r : Rule}

theorem bind_rename {b : Binding} (constants : b.OfConstants) :
    (r.rename π name).bind (b.rename π) = (r.bind b).rename π name := by
  have patterns : ∀ l : List Pattern,
      (l.map (·.map π)).map (·.bind (b.rename π)) = (l.map (·.bind b)).map (·.map π) := by
    intro l
    simp only [List.map_map]
    exact List.map_congr_left fun p _ => Pattern.bind_rename p constants
  simp only [bind, rename, patterns]

/-- Bindings that conclusions take on, under other names. -/
theorem mapM_match?_rename (l : List Pattern) (q : Pattern) :
    (l.map (·.map π)).mapM (fun p : Pattern => p.match? q) =
      (l.mapM fun p : Pattern => p.match? q).map (List.map (Binding.rename π)) := by
  induction l with
  | nil => rfl
  | cons p rest ih =>
    simp only [List.map_cons, List.mapM_cons, Pattern.match?_rename, ih]
    cases p.match? q with
    | none => rfl
    | some b =>
      cases rest.mapM fun p : Pattern => p.match? q with
      | none => rfl
      | some bs => rfl

/-- A query narrows a renamed rule to the renamed one of what it narrows the rule to. -/
theorem narrow?_rename (q : Query) :
    (r.rename π name).narrow? q = (r.narrow? q).map (rename π name) := by
  have empty : (r.rename π name).head.isEmpty = r.head.isEmpty := by simp [rename]
  have matched : (r.rename π name).head.mapM (fun c => c.match? q.toPattern) =
      (r.head.mapM fun c : Pattern => c.match? q.toPattern).map (List.map (Binding.rename π)) :=
    mapM_match?_rename r.head q.toPattern
  unfold narrow?
  rw [empty, matched]
  split
  · rfl
  · cases found : r.head.mapM fun c => c.match? q.toPattern with
    | none => rfl
    | some bindings =>
      have merged : Binding.merge? (bindings.map (Binding.rename π)) =
          (Binding.merge? bindings).map (Binding.rename π) := Binding.merge?_rename bindings
      cases hd : Binding.merge? bindings with
      | none => simp [merged, hd]
      | some d =>
        have constants : d.OfConstants := by
          refine Binding.ofConstants_merge? (fun b hb => ?_) hd
          obtain ⟨c, -, hm⟩ := (mem_iff_of_mapM_eq_some found).mp hb
          exact Pattern.ofConstants_match? hm
        simp [merged, hd, bind_rename constants]

/-- A row meets the premises of a renamed rule under the renamed binding. -/
theorem trigger?_rename (row : Triple) :
    (r.rename π name).trigger? row = (r.trigger? row).map (Binding.rename π) := by
  have matched : (r.rename π name).body.filterMap (fun premise => premise.match? row.fact) =
      (r.body.filterMap fun premise => premise.match? row.fact).map (Binding.rename π) := by
    simp only [rename, List.filterMap_map, List.map_filterMap]
    exact List.filterMap_congr fun premise _ => Pattern.match?_rename premise row.fact
  unfold trigger?
  rw [matched]
  cases r.body.filterMap fun premise => premise.match? row.fact with
  | nil => rfl
  | cons b rest =>
    have merged : Binding.merge? ((b :: rest).map (Binding.rename π)) =
        (Binding.merge? (b :: rest)).map (Binding.rename π) := Binding.merge?_rename _
    change (Binding.merge? ((b :: rest).map (Binding.rename π))).map _ =
      ((Binding.merge? (b :: rest)).map _).map (Binding.rename π)
    rw [merged, Option.map_map, Option.map_map]
    rfl

/-- The predicates that premises name are constants. -/
theorem bodyPredicates?_rename : (r.rename π name).bodyPredicates? = r.bodyPredicates? := by
  have variable_ : (r.rename π name).body.any (fun premise => premise.predicate.isVariable) =
      r.body.any fun premise => premise.predicate.isVariable := by
    rw [rename, List.any_map]
    congr 1
    funext premise
    exact π.isVariable_apply premise.predicate
  unfold bodyPredicates?
  rw [variable_]
  split
  · rfl
  · next named =>
    rw [rename, List.map_map]
    refine congrArg some (List.map_congr_left fun premise hp => ?_)
    have constant : premise.predicate.isVariable = false := by
      simpa using List.any_eq_false.mp (Bool.eq_false_iff.mpr named) premise hp
    exact π.constant _ constant

/-- The conclusions of a renamed rule become the same facts. -/
theorem instances_rename {b : Binding} (constants : b.OfConstants) :
    (r.rename π name).instances (b.rename π) = r.instances b := by
  rw [instances, instances, rename, List.filterMap_map]
  exact List.filterMap_congr fun c _ => Pattern.instantiate?_rename c constants

end Rule

namespace Firing

/-- The firing of a renamed rule. -/
def rename (π : Renaming) (name : String) (f : Firing) : Firing :=
  ⟨f.origin.rename π name, f.rule.rename π name, f.mark⟩

variable {name : String} {f : Firing}

@[simp] theorem rule_rename : (f.rename π name).rule = f.rule.rename π name := rfl

@[simp] theorem mark_rename : (f.rename π name).mark = f.mark := rfl

@[simp] theorem residual_rename : (f.rename π name).residual = f.residual.map (·.map π) := by
  simp only [residual, rename, Rule.rename, List.filter_map]
  congr 1
  refine List.filter_congr fun premise _ => ?_
  simp

/-- What a firing concludes does not depend on what variables are called. -/
theorem conclusions_rename (mode : Mode) (rows : List Triple) :
    (f.rename π name).conclusions mode rows = f.conclusions mode rows := by
  unfold conclusions
  rw [residual_rename, rule_rename, mark_rename]
  cases f.residual with
  | nil =>
    simp only [List.map_nil]
    refine List.flatMap_congr fun m _ => ?_
    have instances : (f.rule.rename π name).instances ((Binding.empty.withMark m).rename π) =
        f.rule.instances (Binding.empty.withMark m) :=
      Rule.instances_rename (Binding.ofConstants_empty.withMark m)
    rwa [Binding.rename_withMark, Binding.rename_empty] at instances
  | cons premise rest =>
    refine List.flatMap_congr fun row _ => ?_
    simp only [Pattern.matchRow?, Pattern.match?_rename]
    cases matched : premise.match? row.fact with
    | none => rfl
    | some b =>
      simp only [Option.map_some]
      cases mode.commonMark? f.mark (some row.mark) with
      | none => rfl
      | some m =>
        have constants : (b.withMark m).OfConstants :=
          (Pattern.ofConstants_match? matched).withMark m
        exact Rule.instances_rename constants

end Firing

namespace Rule

variable {name : String} {r : Rule}

/-- A row sets off a renamed rule as it sets off the rule. -/
theorem fire?_rename (row : Triple) :
    (r.rename π name).fire? row = (r.fire? row).map (Firing.rename π name) := by
  rw [fire?, fire?, trigger?_rename]
  cases h : r.trigger? row with
  | none => rfl
  | some b =>
    simp only [Option.map_some, Firing.rename]
    rw [bind_rename (ofConstants_trigger? h), Binding.mark_rename]

/-- The variables that occur in a rule. -/
def vars (r : Rule) : List Term :=
  ((r.body ++ r.head).flatMap Pattern.terms).filter Term.isVariable

/-- New names for the variables of a rule: variables as well, no two of them alike. -/
structure Names (r : Rule) (ρ : Term → Term) : Prop where
  isVariable : ∀ x ∈ r.vars, (ρ x).isVariable = true
  apart : ∀ x ∈ r.vars, ∀ y ∈ r.vars, ρ x = ρ y → x = y

/-- The rule with its variables, and itself, called otherwise. -/
def respell (r : Rule) (ρ : Term → Term) (name : String) : Rule :=
  let spelled (t : Term) : Term := if t.isVariable then ρ t else t
  ⟨name, r.body.map (·.map spelled), r.head.map (·.map spelled)⟩

/-- The second rule is the first one under other names. -/
def SameButForNames (r s : Rule) : Prop := ∃ ρ name, r.Names ρ ∧ s = r.respell ρ name

/-- New names for the variables of a rule can be completed to a renaming. The old names that fall
free take the places of those that are newly taken. -/
theorem Names.exists_renaming {ρ : Term → Term} (names : r.Names ρ) :
    ∃ π : Renaming, ∀ x ∈ r.vars, π x = ρ x := by
  let old : Finset Term := r.vars.toFinset
  let all : Finset Term := old ∪ old.image ρ
  have stays : Set.MapsTo (fun x : all => ρ x) {x : all | (x : Term) ∈ old} all := fun x hx =>
    Finset.mem_union_right _ (Finset.mem_image_of_mem ρ hx)
  have apart : Set.InjOn (fun x : all => ρ x) {x : all | (x : Term) ∈ old} := fun x hx y hy same =>
    Subtype.ext (names.apart x (List.mem_toFinset.mp hx) y (List.mem_toFinset.mp hy) same)
  obtain ⟨g, hg⟩ : ∃ g : all ≃ all, ∀ x ∈ {x : all | (x : Term) ∈ old}, (g x : Term) = ρ x :=
    stays.exists_equiv_extend_of_card_eq (Fintype.card_coe all) apart
  have variable_ : ∀ t ∈ all, t.isVariable = true := by
    intro t ht
    rcases Finset.mem_union.mp ht with ht | ht
    · exact (List.mem_filter.mp (List.mem_toFinset.mp ht)).2
    · obtain ⟨x, hx, rfl⟩ := Finset.mem_image.mp ht
      exact names.isVariable x (List.mem_toFinset.mp hx)
  refine ⟨⟨Equiv.Perm.ofSubtype g, fun t constant => ?_⟩, fun x hx => ?_⟩
  · apply Equiv.Perm.ofSubtype_apply_of_not_mem
    intro ht
    rw [variable_ t ht] at constant
    cases constant
  · have known : x ∈ old := List.mem_toFinset.mpr hx
    have among : x ∈ all := Finset.mem_union_left _ known
    exact (Equiv.Perm.ofSubtype_apply_of_mem g among).trans (hg ⟨x, among⟩ known)

/-- A rule under other names is the rule renamed. -/
theorem SameButForNames.exists_renaming {s : Rule} (same : r.SameButForNames s) :
    ∃ (π : Renaming) (name : String), s = r.rename π name := by
  obtain ⟨ρ, name, names, rfl⟩ := same
  obtain ⟨π, agrees⟩ := names.exists_renaming
  have spelled : ∀ p ∈ r.body ++ r.head,
      p.map (fun t => if t.isVariable then ρ t else t) = p.map π := by
    intro p hp
    apply Pattern.ext_get
    intro i
    rw [Pattern.get_map, Pattern.get_map]
    split
    · next isVariable =>
      have listed : p.get i ∈ r.vars := List.mem_filter.mpr
        ⟨List.mem_flatMap.mpr ⟨p, hp, Pattern.get_mem_terms p i⟩, isVariable⟩
      exact (agrees _ listed).symm
    · next constant => exact (π.constant _ (Bool.eq_false_iff.mpr constant)).symm
  refine ⟨π, name, ?_⟩
  simp only [respell, rename, mk.injEq, true_and]
  exact ⟨List.map_congr_left fun p hp => spelled p (List.mem_append_left _ hp),
    List.map_congr_left fun p hp => spelled p (List.mem_append_right _ hp)⟩

end Rule

end Annals
