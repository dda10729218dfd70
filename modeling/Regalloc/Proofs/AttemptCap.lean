import Regalloc.Proofs.SpillRecord

/-! The cap on attempts cuts the spill loop short and does nothing else. A run that ends with a
placement is the same under every larger cap, and one that gives up at its cap has made the first
attempts of the longer run. -/
namespace Regalloc

def Colorer.Passes (colorer : Colorer) (t : Target) (p : Program) (l : Liveness) : Prop :=
  ∀ excluded g, p.interference t l excluded = .ok g → (colorer.color g).violation? g = none

theorem Colorer.builtInPasses {colorer : Colorer} (builtIn : colorer.BuiltIn) (t : Target)
    (p : Program) (flow : ControlFlow) : colorer.Passes t p (p.liveness flow) := by
  intro excluded g built
  have simple := Interference.exactSimple (Program.interferenceSource built)
  exact Coloring.violationNone.mpr (Coloring.properOfExact simple (builtInExact builtIn simple))

def Notice.spilled (notices : List Notice) : List (Name × Nat) :=
  notices.filterMap fun
    | .spilling x conflicts => some (x, conflicts)
    | _ => none

theorem Spills.slotsPrefix {s u : Spills} (names : s.names <+: u.names)
    (stride : s.stride = u.stride) : s.slots <+: u.slots := by
  obtain ⟨later, same⟩ := names
  unfold slots
  rw [← same, List.zipIdx_append, List.map_append, stride]
  exact List.prefix_append _ _

namespace Allocation

variable {t : Target} {colorer : Colorer} {p : Program} {flow : ControlFlow} {s : Spills}
  {more : Nat} {past : List Nat} {outcome : Outcome}

inductive Turn (t : Target) (colorer : Colorer) (p : Program) (flow : ControlFlow) (s : Spills)
    (past : List Nat) : Prop where
  | ends (result : Logged (Except Fault Outcome))
      (same : ∀ more, attempts t colorer p (p.liveness flow) more s past = result)
      (returns : colorer.Passes t p (p.liveness flow) → ∃ outcome, result.value = .ok outcome)
  | spills (a : Attempt) (x : Name) (told : List Notice) (made : Made t p flow colorer s past a)
      (last : attempts t colorer p (p.liveness flow) 0 s past =
        ⟨told ++ [doneNotice a], .ok (.failed a t.budget)⟩)
      (next : ∀ more, attempts t colorer p (p.liveness flow) (more + 1) s past =
        let rest := attempts t colorer p (p.liveness flow) more ⟨s.names ++ [x], s.stride⟩ a.history
        ⟨told ++ (spillNotices x (s.size * s.stride) (a.graph.degree x) ++ rest.notices),
          rest.value⟩)

theorem turn (t : Target) (colorer : Colorer) (p : Program) (flow : ControlFlow) (s : Spills)
    (past : List Nat) : Turn t colorer p flow s past := by
  obtain ⟨g, built, _⟩ := p.interferenceExact t flow s.nameSet
  have open_ (more : Nat) := attempts.eq_def t colorer p (p.liveness flow) more s past
  simp only [built] at open_
  cases clean : (colorer.color g).violation? g with
  | some fault =>
    simp only [clean] at open_
    refine .ends _ open_ fun passes => ?_
    exact absurd (clean.symm.trans (passes _ g built)) (Option.some_ne_none fault)
  | none =>
    simp only [clean] at open_
    by_cases fit : (colorer.color g).used ≤ t.budget
    · simp only [if_pos fit] at open_
      exact .ends _ open_ fun _ => ⟨_, rfl⟩
    · simp only [if_neg fit] at open_
      cases found : g.mostConflicted? with
      | none =>
        simp only [found] at open_
        exact .ends _ open_ fun _ => ⟨_, rfl⟩
      | some x =>
        simp only [found] at open_
        have made : Made t p flow colorer s past
            ⟨g, colorer.color g, s, past ++ [(colorer.color g).used]⟩ := ⟨rfl, built, rfl, rfl⟩
        refine .spills _ x _ made (open_ 0) fun more => (open_ (more + 1)).trans ?_
        simp only [made.added found, List.append_assoc]

theorem attemptsReturn (passes : colorer.Passes t p (p.liveness flow)) (more : Nat) (s : Spills)
    (past : List Nat) :
    ∃ outcome, (attempts t colorer p (p.liveness flow) more s past).value = .ok outcome := by
  induction more generalizing s past with
  | zero =>
    cases turn t colorer p flow s past with
    | ends result same returns => exact same 0 ▸ returns passes
    | spills a x told made last next => exact last ▸ ⟨_, rfl⟩
  | succ more ih =>
    cases turn t colorer p flow s past with
    | ends result same returns => exact same (more + 1) ▸ returns passes
    | spills a x told made last next => exact next more ▸ ih _ a.history

theorem attemptsCap (cap more : Nat) (s : Spills) (past : List Nat) (l : Liveness) :
    attempts { t with attempts := cap } colorer p l more s past =
      attempts t colorer p l more s past := by
  induction more generalizing s past with
  | zero =>
    rw [attempts.eq_def, attempts.eq_def t]
    rfl
  | succ more ih =>
    have interference : p.interference { t with attempts := cap } l = p.interference t l := rfl
    rw [attempts.eq_def, attempts.eq_def t, interference]
    cases p.interference t l s.nameSet with
    | error fault => rfl
    | ok g =>
      dsimp only
      cases g.mostConflicted? with
      | none => rfl
      | some x =>
        dsimp only
        cases s.add x with
        | error fault => rfl
        | ok spilled =>
          simp only [ih]
          rfl

structure Continues (earlier later : Attempt) : Prop where
  history : earlier.history <+: later.history
  longer : earlier.history.length < later.history.length
  names : earlier.spills.names <+: later.spills.names
  stride : earlier.spills.stride = later.spills.stride

theorem Made.continues {a : Attempt} {x : Name} (made : Made t p flow colorer s past a)
    (ok : (attempts t colorer p (p.liveness flow) more ⟨s.names ++ [x], s.stride⟩ a.history).value
      = .ok outcome) : Continues a outcome.last := by
  obtain ⟨tried, names, run, _, _⟩ := attemptsRecorded ok
  obtain ⟨b, rest, rfl, _⟩ := run.first
  obtain ⟨names, all, _⟩ := run.sequence
  have history := run.history
  refine ⟨⟨_, history.symm⟩, ?_, ⟨x :: names, ?_⟩, ?_⟩
  · rw [history, List.length_append, List.length_map, List.length_cons]
    omega
  · rw [all, made.spills, List.append_assoc]
    rfl
  · rw [all, made.spills]

structure GivesUp (t : Target) (short long : Logged (Except Fault Outcome)) (made : Nat)
    (last : Attempt) : Prop where
  failed : short.value = .ok (.failed last t.budget)
  made : last.history.length = made
  notices : ∃ told, short.notices = told ++ [doneNotice last] ∧ told <+: long.notices
  later : ∀ outcome, long.value = .ok outcome → Continues last outcome.last

theorem attemptsMore (extra more : Nat) (s : Spills) (past : List Nat) :
    let short := attempts t colorer p (p.liveness flow) more s past
    let long := attempts t colorer p (p.liveness flow) (more + extra) s past
    long = short ∨ ∃ last, GivesUp t short long (past.length + more + 1) last := by
  dsimp only
  induction more generalizing s past with
  | zero =>
    cases turn t colorer p flow s past with
    | ends result same => exact .inl ((same _).trans (same 0).symm)
    | spills a x told made last next =>
      cases extra with
      | zero => exact .inl rfl
      | succ extra =>
        rw [last, Nat.zero_add, next]
        refine .inr ⟨a, rfl, ?_, ⟨told, rfl, List.prefix_append _ _⟩, fun outcome ok => ?_⟩
        · rw [made.history, List.length_append]
          rfl
        · exact made.continues ok
  | succ more ih =>
    cases turn t colorer p flow s past with
    | ends result same => exact .inl ((same _).trans (same _).symm)
    | spills a x told made last next =>
      rw [Nat.succ_add, next, next]
      rcases ih ⟨s.names ++ [x], s.stride⟩ a.history with same | ⟨last, cut⟩
      · exact .inl (by rw [same])
      · obtain ⟨before, all, start⟩ := cut.notices
        refine .inr ⟨last, cut.failed, ?_, ?_, cut.later⟩
        · rw [cut.made, made.history, List.length_append, List.length_singleton]
          omega
        · refine ⟨told ++ (spillNotices x (s.size * s.stride) (a.graph.degree x) ++ before), ?_, ?_⟩
          · simp only [all, List.append_assoc]
          · exact (List.prefix_append_right_inj told).mpr
              ((List.prefix_append_right_inj _).mpr start)

theorem allocateCap (cap : Nat) (l : Liveness) :
    p.allocate { t with attempts := cap } colorer l =
      let run := attempts t colorer p l (cap - 1) (Spills.none t.stride) []
      ⟨.log .debug s!"allocating registers ({colorer.name} colorer)" :: run.notices, run.value⟩ := by
  unfold Program.allocate
  rw [attemptsCap]

theorem GivesUp.spilled {short long : Logged (Except Fault Outcome)} {made : Nat} {last : Attempt}
    (cut : GivesUp t short long made last) :
    Notice.spilled short.notices <+: Notice.spilled long.notices := by
  obtain ⟨told, all, start⟩ := cut.notices
  have quiet : Notice.spilled short.notices = Notice.spilled told := by
    rw [all, Notice.spilled, List.filterMap_append]
    exact List.append_nil _
  rw [quiet]
  exact start.filterMap _

theorem capTruncates (passes : colorer.Passes t p (p.liveness flow)) {m n : Nat} (le : m ≤ n) :
    let short := p.allocate { t with attempts := m } colorer (p.liveness flow)
    let long := p.allocate { t with attempts := n } colorer (p.liveness flow)
    ∃ first final, short.value = .ok first ∧ long.value = .ok final ∧
      (∀ last registers, first = .allocated last registers → long = short) ∧
      (∀ last budget, first = .failed last budget →
        last.history <+: final.last.history ∧ last.spills.slots <+: final.last.spills.slots ∧
        Notice.spilled short.notices <+: Notice.spilled long.notices) ∧
      ∀ last registers, final = .allocated last registers → last.history.length ≤ max 1 m →
        short = long := by
  rw [allocateCap, allocateCap]
  obtain ⟨first, here⟩ := attemptsReturn passes (m - 1) (Spills.none t.stride) []
  obtain ⟨final, there⟩ := attemptsReturn passes (n - 1) (Spills.none t.stride) []
  refine ⟨first, final, here, there, ?_⟩
  obtain ⟨extra, more⟩ := Nat.exists_eq_add_of_le (Nat.sub_le_sub_right le 1)
  rw [more] at there ⊢
  dsimp only
  rcases attemptsMore extra (m - 1) (Spills.none t.stride) [] with same | ⟨gaveUp, cut⟩
  · have alike : final = first := Except.ok.inj (there.symm.trans (same ▸ here))
    rw [same, alike]
    refine ⟨fun _ _ _ => rfl, fun last budget failed => ?_, fun _ _ _ _ => rfl⟩
    rw [failed]
    exact ⟨List.prefix_rfl, List.prefix_rfl, List.prefix_rfl⟩
  · have alike : first = .failed gaveUp t.budget := Except.ok.inj (here.symm.trans cut.failed)
    have goesOn := cut.later final there
    refine ⟨fun last registers done => ?_, fun last budget failed => ?_,
      fun last registers done few => ?_⟩
    · cases alike.symm.trans done
    · cases alike.symm.trans failed
      exact ⟨goesOn.history, Spills.slotsPrefix goesOn.names goesOn.stride, cut.spilled⟩
    · -- The longer run went on, so it has made one attempt more than the cap allows.
      have longer : gaveUp.history.length < last.history.length := by
        rw [done] at goesOn
        exact goesOn.longer
      have made : gaveUp.history.length = 0 + (m - 1) + 1 := cut.made
      omega

def cliqueRun (p : Program) (cap : Nat) : Logged (Except Fault Outcome) :=
  p.allocate { Target.standard with registers := 1, attempts := cap } .greedy (p.liveness p.flow)

theorem cliqueTruncated : ∃ (p : Program) (last whole : Attempt) (budget : Nat)
    (registers : NameMap Register),
    Program.parse "IN a\nIN b\nIN c\nOUT a\nOUT b\nOUT c\n" 0 = .ok p ∧ 2 ≤ 5 ∧
    (cliqueRun p 2).value = .ok (.failed last budget) ∧
    (cliqueRun p 5).value = .ok (.allocated whole registers) ∧
    last.history = [3, 2] ∧ whole.history = [3, 2, 1] ∧ last.history <+: whole.history ∧
    last.spills.slots <+: whole.spills.slots ∧
    Notice.spilled (cliqueRun p 2).notices <+: Notice.spilled (cliqueRun p 5).notices ∧
    cliqueRun p 3 = cliqueRun p 5 := by
  have ran : (Program.parse "IN a\nIN b\nIN c\nOUT a\nOUT b\nOUT c\n" 0).toOption.any (fun p =>
      (cliqueRun p 2).value.toOption.any (fun outcome =>
        outcome.placement?.isNone && decide (outcome.last.history = [3, 2])) &&
      (cliqueRun p 5).value.toOption.any fun outcome =>
        outcome.placement?.isSome && decide (outcome.last.history = [3, 2, 1])) = true := by
    decide +kernel
  obtain ⟨p, parsed, ran⟩ := okOf ran
  obtain ⟨ranShort, ranLong⟩ := Bool.and_eq_true_iff.mp ran
  obtain ⟨first, short, ranShort⟩ := okOf ranShort
  obtain ⟨final, long, ranLong⟩ := okOf ranLong
  have passes (cap : Nat) := Colorer.builtInPasses .greedy
    { Target.standard with registers := 1, attempts := cap } p p.flow
  cases first with
  | allocated last registers => cases ranShort
  | failed last budget =>
    cases final with
    | failed whole budget => cases ranLong
    | allocated whole registers =>
      have history : whole.history = [3, 2, 1] := of_decide_eq_true ranLong
      obtain ⟨_, _, first, final, _, cut, _⟩ := capTruncates (passes 2) (show 2 ≤ 5 by decide)
      cases Except.ok.inj (short.symm.trans first)
      cases Except.ok.inj (long.symm.trans final)
      obtain ⟨longer, slots, told⟩ := cut last budget rfl
      obtain ⟨_, _, _, final, _, _, same⟩ := capTruncates (passes 3) (show 3 ≤ 5 by decide)
      cases Except.ok.inj (long.symm.trans final)
      exact ⟨p, last, whole, budget, registers, parsed, by decide, short, long,
        of_decide_eq_true ranShort, history, longer, slots, told,
        same whole registers rfl (by rw [history]; decide)⟩

end Allocation

end Regalloc
