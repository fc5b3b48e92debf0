import Annals.Proofs.Inference.Termination

/-!
# What the report of a run accounts for

A run counts in different places: where it asks the stores, where a row sets off a rule, where the
answer takes in what a round concluded and where it drops a retraction. The counts are tied here to
what happened. A run that ends leaves the firings of its rounds behind, and one round changes the
report by what its own firings and its own gains are.

## Implementation notes

The equations hold of a run over any backend, as a round that was made tells what it cost. Stores
are needed only where the bound on the rounds must not cut the run short.
-/

namespace Annals

namespace Metered

/-- Where every step has a cost, a list of steps that succeeds costs the sum. -/
theorem asked_of_run_mapM {α β : Type} {g : α → Metered β} {cost : α → Nat} {l : List α}
    (hg : ∀ a ∈ l, ∀ asked r after, (g a).run asked = .ok (r, after) → after = asked + cost a)
    {asked after : Nat} {results : List β} (h : (l.mapM g).run asked = .ok (results, after)) :
    after = asked + l.foldr (fun a n => cost a + n) 0 := by
  induction l generalizing asked results with
  | nil =>
    cases h
    rfl
  | cons a rest ih =>
    rw [List.mapM_cons] at h
    obtain ⟨r, middle, first, h⟩ := exists_run_of_bind h
    obtain ⟨others, last, later, done⟩ := exists_run_of_bind h
    cases done
    have began : middle = asked + cost a := hg a List.mem_cons_self asked r middle first
    have went := ih (fun b hb => hg b (List.mem_cons_of_mem a hb)) later
    rw [went, began, List.foldr_cons, Nat.add_assoc]

end Metered

namespace Backend

/-- A search that succeeds asked every store once. -/
theorem asked_of_run_search {b : Backend} {q : Query} {scopes : ScopePair} {asked after : Nat}
    {found : List Triple} (h : (b.search q scopes).run asked = .ok (found, after)) :
    after = asked + b.width := by
  rw [run_search] at h
  cases rows : b.rows q scopes with
  | error e =>
    rw [rows] at h
    cases h
  | ok found =>
    rw [rows] at h
    cases h
    rfl

end Backend

namespace Firing

/-- One premise is left to look up. -/
def looksUp (f : Firing) : Bool := decide (f.residual.length = 1)

variable {b : Backend} {mode : Mode} {premises : ScopePair} {f : Firing} {asked after : Nat}
  {rows : List Triple}

theorem asked_of_run (single : f.residual.length ≤ 1)
    (h : (f.run b mode premises).run asked = .ok (rows, after)) :
    after = asked + if f.looksUp then b.width else 0 := by
  unfold run at h
  unfold looksUp
  cases left : f.residual with
  | nil =>
    rw [left] at h
    cases h
    rfl
  | cons premise rest =>
    obtain rfl : rest = [] := by simpa [left] using single
    rw [left] at h
    obtain ⟨found, middle, searched, done⟩ := Metered.exists_run_of_bind h
    cases done
    exact Backend.asked_of_run_search searched

end Firing

/-- A round that was made set off what its frontier sets off, and asked every store once for each
premise that was left. -/
theorem Frontier.of_run_round {b : Backend} {mode : Mode} {rules : List Rule} {premises : ScopePair}
    {f : Frontier} {firings : List Firing} {concluded : List Triple} {asked after : Nat}
    (made : (f.round b mode rules premises).run asked = .ok ((firings, concluded), after)) :
    firings = f.firings rules ∧ after = asked + b.width * firings.countP Firing.looksUp := by
  cases several : (f.firings rules).find? fun firing => firing.residual.length > 1 with
  | some firing =>
    simp only [round, several] at made
    cases made
  | none =>
    simp only [round, several] at made
    obtain ⟨found, middle, ran, done⟩ := Metered.exists_run_of_bind made
    cases done
    have single : ∀ firing ∈ f.firings rules, firing.residual.length ≤ 1 := fun firing h =>
      Nat.le_of_not_lt (by simpa using List.find?_eq_none.mp several firing h)
    rw [← foldr_price_eq]
    exact ⟨rfl, Metered.asked_of_run_mapM
      (fun firing h asked rows after => Firing.asked_of_run (single firing h)) ran⟩

/-- The report accounts for a run over so many stores, which found the given rows to begin with and
set off the given rules in all of its rounds. -/
structure Inference.Accounts (inf : Inference) (stores : Nat) (mode : Mode) (found : List Triple)
    (firings : List Firing) : Prop where
  triggered : inf.report.triggered = firings.length
  fired : inf.report.fired.total = inf.report.triggered
  /-- Every store is asked for the rows to begin with and for each premise that is left. -/
  asked : inf.report.asked = stores * (1 + firings.countP Firing.looksUp)
  snapshot : mode = .snapshot → inf.rows.length = (distinct found).length + inf.report.inferred
  delta : mode = .delta → inf.report.suppressed + inf.rows.length = (distinct found).length
  suppressed : mode ≠ .delta → inf.report.suppressed = 0

/-- The queries asked are no more than if every firing had left a premise to look up. -/
theorem Inference.Accounts.asked_bounds {inf : Inference} {stores : Nat} {mode : Mode}
    {found : List Triple} {firings : List Firing} (h : inf.Accounts stores mode found firings) :
    stores ≤ inf.report.asked ∧ inf.report.asked ≤ stores * (1 + inf.report.triggered) := by
  have most : firings.countP Firing.looksUp ≤ firings.length := List.countP_le_length
  rw [h.asked, h.triggered]
  exact ⟨Nat.le_mul_of_pos_right stores (Nat.add_pos_left Nat.one_pos _),
    Nat.mul_le_mul_left stores (Nat.add_le_add_left most 1)⟩

namespace Progress

/-- What inference answers if it ends here, with so many queries asked. -/
def ended (p : Progress) (asked : Nat) : Inference :=
  ⟨p.answer.rows, { p.report with asked := asked }⟩

/-- The loop leads from one state of a run, with so many queries asked, to one where nothing is left
to do, and each round sets off what the list says. -/
inductive Fires (b : Backend) (mode : Mode) (rules : List Rule) (premises : ScopePair) :
    Progress → Nat → List (List Firing) → Progress → Nat → Prop
  | stop {p : Progress} {asked : Nat} (ends : p.idle rules = true) :
      Fires b mode rules premises p asked [] p asked
  | round {p last : Progress} {asked after total : Nat} {concluded : List Triple}
      {later : List (List Firing)} (goesOn : p.idle rules = false)
      (made : (p.frontier.round b mode rules premises).run asked =
        .ok ((p.frontier.firings rules, concluded), after))
      (rest : Fires b mode rules premises (p.advance (p.frontier.firings rules) concluded) after
        later last total) :
      Fires b mode rules premises p asked (p.frontier.firings rules :: later) last total

variable {b : Backend} {mode : Mode} {rules : List Rule} {premises : ScopePair}
  {p last : Progress} {asked after total n stores : Nat} {found concluded : List Triple}
  {firings before : List Firing} {fired : List (List Firing)}

/-- A loop that ends fires so many times as it has rounds. -/
theorem Loops.exists_fires {outcome : Except EngineError (Progress × Nat)}
    (h : Loops b mode rules premises p asked n outcome) (ok : outcome = .ok (last, total)) :
    ∃ fired, fired.length = n ∧ Fires b mode rules premises p asked fired last total := by
  induction h with
  | stop ends =>
    cases ok
    exact ⟨[], rfl, .stop ends⟩
  | fail => cases ok
  | round goesOn made rest ih =>
    obtain ⟨rfl, -⟩ := Frontier.of_run_round made
    obtain ⟨later, count, fires⟩ := ih ok
    exact ⟨_ :: later, congrArg (· + 1) count, .round goesOn made fires⟩

/-- No round is made if and only if there is nothing to do from the start. -/
theorem Fires.eq_nil_iff (h : Fires b mode rules premises p asked fired last total) :
    fired = [] ↔ p.frontier.toList = [] ∨ rules = [] := by
  rw [← idle_iff]
  cases h with
  | stop ends => exact iff_of_true rfl ends
  | round goesOn => exact iff_of_false (List.cons_ne_nil _ _) (Bool.eq_false_iff.mp goesOn)

theorem accounts_start (mode : Mode) (found : List Triple) (stores : Nat) :
    ((Progress.start mode found).ended stores).Accounts stores mode found [] where
  triggered := rfl
  fired := rfl
  asked := (Nat.mul_one stores).symm
  snapshot h := Answer.size_ofRows (h ▸ nofun)
  delta h := (Nat.zero_add _).trans (Answer.size_ofRows (h ▸ nofun))
  suppressed _ := rfl

/-- One round keeps the accounts. -/
theorem accounts_advance (inMode : p.answer.mode = mode)
    (h : (p.ended asked).Accounts stores mode found before)
    (cost : after = asked + stores * firings.countP Firing.looksUp) :
    ((p.advance firings concluded).ended after).Accounts stores mode found (before ++ firings) := by
  have report : (p.advance firings concluded).report =
      { p.report with
        rounds := p.report.rounds + 1
        triggered := p.report.triggered + firings.length
        inferred := p.report.inferred + (p.answer.absorb concluded).frontier.size
        suppressed := p.report.suppressed + (p.answer.absorb concluded).suppressed
        fired := firings.foldl (fun t firing => t.add firing.origin.label) p.report.fired } := by
    simp only [advance, Report.foldl_countFiring]
  obtain ⟨triggered, fired, asked, snapshot, delta, suppressed⟩ := h
  simp only [ended] at triggered fired asked snapshot delta suppressed
  constructor <;> simp only [ended, report]
  case triggered => rw [triggered, List.length_append]
  case fired => rw [Tally.total_foldl_add, fired]
  case asked => rw [cost, asked, ← Nat.mul_add, List.countP_append, Nat.add_assoc]
  case snapshot =>
    intro single
    have grown := Answer.size_absorb_of_snapshot (inMode.trans single) concluded
    exact grown.trans (by rw [Answer.size, snapshot single, Nat.add_assoc])
  case delta =>
    intro changes
    have shrunk := Answer.size_absorb_of_delta (inMode.trans changes) concluded
    rw [← delta changes, Nat.add_assoc]
    exact congrArg (p.report.suppressed + ·) shrunk
  case suppressed =>
    intro other
    rw [suppressed other, Answer.suppressed_absorb (inMode ▸ other)]

/-- And so a loop that ends keeps them. -/
theorem Fires.accounts (h : Fires b mode rules premises p asked fired last total)
    (inMode : p.answer.mode = mode) (start : (p.ended asked).Accounts b.width mode found before) :
    (last.ended total).Accounts b.width mode found (before ++ fired.flatten) := by
  induction h generalizing before with
  | stop => rwa [List.flatten_nil, List.append_nil]
  | round goesOn made rest ih =>
    have cost := (Frontier.of_run_round made).2
    rw [List.flatten_cons, ← List.append_assoc]
    exact ih (Answer.mode_absorb.trans inMode) (accounts_advance inMode start cost)

end Progress

/-- The report of inference over stores tells what the run did. The run finds its first rows, then
makes rounds until there is nothing left to do. The rules that it set off are counted, by label and
in all; every store was asked for the first rows and for each rule that was left with a premise to
look up; and the length of the answer tells what was gained in a snapshot and what was dropped in a
difference. Each round but the last one gained something, and no round is made where no rule applies
or there is nothing to set one off. -/
theorem report_accounts_for_run (b : Backend) (stores : b.OverStores) (rules : RuleSet) (q : Query)
    (scopes : ScopePair) (inf : Inference) (ok : infer b rules q scopes = .ok inf) :
    ∃ mode found fired last, scopes.mode = .ok mode ∧ b.rows q scopes = .ok found ∧
      Progress.Fires b mode (rules.applicable q) scopes.premises (.start mode found) b.width fired
        last inf.report.asked ∧
      inf = last.ended inf.report.asked ∧
      inf.Accounts b.width mode found fired.flatten ∧ b.width = (if b.isDual then 2 else 1) ∧
      (b.width ≤ inf.report.asked ∧ inf.report.asked ≤ b.width * (1 + inf.report.triggered)) ∧
      inf.report.rounds = fired.length ∧ inf.report.rounds ≤ inf.report.inferred + 1 ∧
      (inf.report.rounds = 0 ↔
        rules.applicable q = [] ∨ (Answer.ofRows mode found).2.toList = []) := by
  obtain ⟨n, ends⟩ := Infers.exists_rounds stores rules q scopes
  obtain ⟨mode, last, after, hm, ho, loop, rfl⟩ := ends.exists_loop_of_width stores ok
  obtain ⟨fired, count, fires⟩ := loop.exists_fires rfl
  obtain ⟨rounds, gains, -⟩ :=
    loop.counters_of_start ho hm (Finset.insert_nonempty 0 _) (Finset.subset_insert 0 _)
  have accounts : (last.ended after).Accounts b.width mode (b.answers scopes q) fired.flatten :=
    fires.accounts (Answer.mode_ofRows mode) (Progress.accounts_start mode _ b.width)
  have made : last.report.rounds = fired.length := rounds.trans count.symm
  have none_made : last.report.rounds = 0 ↔ rules.applicable q = [] ∨
      (Answer.ofRows mode (b.answers scopes q)).2.toList = [] := by
    rw [made, List.length_eq_zero_iff, fires.eq_nil_iff, Or.comm]
    rfl
  exact ⟨mode, b.answers scopes q, fired, last, hm, Backend.rows_eq_answers ho hm q, fires, rfl,
    accounts, b.width_eq, accounts.asked_bounds, made, rounds ▸ gains, none_made⟩

/-- Between the two versions of the pets two rounds are made. Each sets off the one rule, which asks
the store for a second premise, and the retraction that Tom is an animal is dropped. -/
theorem report_of_pets_accounts_for_run :
    Sample.pets.OverStores ∧
      ∃ inf, infer Sample.pets Sample.taxonomy .any ⟨.delta ⟨0, 1⟩, none⟩ = .ok inf ∧
        inf.report.triggered = 2 ∧ inf.report.asked = 3 ∧ inf.report.suppressed = 1 ∧
        ∃ (found : List Triple) (fired : List (List Firing)),
          Sample.pets.rows .any ⟨.delta ⟨0, 1⟩, none⟩ = .ok found ∧
          fired.length = 2 ∧ inf.Accounts 1 .delta found fired.flatten ∧
          1 + inf.rows.length = (distinct found).length := by
  have stores : Sample.pets.OverStores := fun source hs =>
    ⟨Sample.petStore, List.mem_singleton.mp hs⟩
  have report : (infer Sample.pets Sample.taxonomy .any ⟨.delta ⟨0, 1⟩, none⟩).toOption.map
      Inference.report = some ⟨2, 2, 1, 1, 3, ⟨[("kinds", 2)]⟩⟩ := by
    decide +kernel
  cases ok : infer Sample.pets Sample.taxonomy .any ⟨.delta ⟨0, 1⟩, none⟩ with
  | error e =>
    rw [ok] at report
    cases report
  | ok inf =>
    rw [ok] at report
    have counters : inf.report = ⟨2, 2, 1, 1, 3, ⟨[("kinds", 2)]⟩⟩ := Option.some.inj report
    obtain ⟨mode, found, fired, last, hm, searched, -, -, accounts, -, -, rounds, -, -⟩ :=
      report_accounts_for_run Sample.pets stores Sample.taxonomy .any ⟨.delta ⟨0, 1⟩, none⟩ inf ok
    obtain rfl : Mode.delta = mode := Except.ok.inj hm
    have balance := accounts.delta rfl
    rw [counters] at rounds balance
    exact ⟨stores, inf, rfl, by rw [counters], by rw [counters], by rw [counters], found, fired,
      searched, rounds.symm, accounts, balance⟩

end Annals
