import Mnu.Task.ExitSteps

/-!
# `Mnu.Task.ExitProgress` — an exiting CPU ends up in a live thread

In runs of `sparing` steps no exit ends in a halt (`Mnu.Task.ExitSteps`). Here the bound `Cpu.leaving` counts
the CPU's own steps down until it executes its successor: steps of the others leave it alone, and a timer
interrupt adds a constant. Without the condition the CPU can halt while a thread that could run on it is
ready (`exiting_cpu_halts`).
-/

namespace Mnu.Task

open Lib ThreadQueue Function

variable {n : Nat}

/-! ## What a step leaves alone -/

namespace Label

/-- The CPU that moves. -/
def cpu : Label n → Option (Fin n)
  | .step c _ => some c
  | .call c _ => some c
  | .interrupt c _ => some c
  | .setInterrupts c _ => some c
  | .async _ => none
  | .boot c _ => some c

/-- A step of CPU `c` in the code it is running. -/
def isStep (c : Fin n) : Label n → Bool
  | .step d _ => d = c
  | _ => false

/-- A timer interrupt on CPU `c`. -/
def isInterrupt (c : Fin n) : Label n → Bool
  | .interrupt d _ => d = c
  | _ => false

end Label

namespace State

variable {s s' : State n} {c d : Fin n} {l : Label n} {a : Answer} {x next : ThreadId} {k : Nat}
  {current : Option ThreadId} {cpu : Cpu} {slot : Slot} {after : AfterSwitch} (h : s.Consistent)

/-- The thread a step may end. -/
def victim (s : State n) : Label n → Option ThreadId
  | .step c _ =>
    match (s.cpus c).mode, (s.cpus c).code with
    | .run, f :: _ => f.victim
    | _, _ => none
  | _ => none

/-- One step, as the CPUs that do not move see it. -/
structure Footprint (s : State n) (l : Label n) (s' : State n) : Prop where
  spares : Spares (s.victim l) s.queue s'.queue
  buries : Buries s.nextThreadId s.queue s'.queue
  others : ∀ d, l.cpu ≠ some d → s'.cpus d = s.cpus d

/-- The queue is treated in some way and one CPU moves. -/
theorem Footprint.of_update {victim : Option ThreadId}
    (hq : Treats s.nextThreadId victim s.queue s'.queue) (hvictim : victim = none ∨ victim = s.victim l)
    (hcpus : s'.cpus = update s.cpus c cpu) (hl : l.cpu = some c) : s.Footprint l s' where
  spares := by
    rcases hvictim with rfl | rfl
    · exact fun slot t ht halive _ => hq.spares slot t ht halive nofun
    · exact hq.spares
  buries := hq.buries
  others := by
    intro d hd
    have hne : d ≠ c := by
      rintro rfl
      exact hd hl
    rw [hcpus, update_of_ne hne]

theorem Footprint.of_put {t t' : Thread (Fin n) Context}
    (hqueue : s'.queue = s.queue.put slot t') (ht : s.queue.threads slot = some t) (hid : t'.id = t.id)
    (hstate : t'.state = t.state) (hcpus : s'.cpus = update s.cpus c cpu)
    (hl : l.cpu = some c) : s.Footprint l s' where
  spares := hqueue ▸ spares_put ht hid fun halive _ => hstate ▸ halive
  buries := hqueue ▸ buries_put ht hid hstate
  others := by
    intro d hd
    have hne : d ≠ c := by
      rintro rfl
      exact hd hl
    rw [hcpus, update_of_ne hne]

include h

theorem Consistent.switch_footprint
    (hmode : (s.cpus c).mode = .switchTo current next slot after) :
    s.Footprint (.step c a) (s.switchStep c current next slot after a.ok) := by
  have hmoves := h.switchStep_switches hmode a.ok
  generalize s.switchStep c current next slot after a.ok = s' at hmoves ⊢
  cases hmoves with
  | publish => exact .of_update .refl (.inl rfl) rfl rfl
  | refuse =>
    cases after with
    | resume | halt r => exact .of_update .refl (.inl rfl) rfl rfl
  | guard =>
    cases after with
    | resume | halt r =>
      rw [State.switchReturns, setMode_setCode]
      exact .of_update .refl (.inl rfl) rfl rfl

theorem Consistent.cpu_footprint (hstep : s.cpuStep c a = some s') : s.Footprint (.step c a) s' := by
  have hm := (h.cpu c).mode
  cases cpuStep_moves hstep with rw [hmode] at hm
  | @run f rest hmode hcode =>
    obtain ⟨⟨cpu, hcpus, -⟩, hq⟩ := runFrame_moves h hcode a
    refine .of_update hq (.inr ?_) hcpus rfl
    simp only [victim, hmode, hcode]
  | select hmode =>
    have hq : Treats s.nextThreadId none s.queue (s.queue.selectNextThread c (s.cpus c).current).1 :=
      treats_selectNextThread h.wf _
    unfold State.selectStep
    dsimp only
    split
    · exact .of_update hq (.inl rfl) rfl rfl
    · split
      · exact .of_update hq (.inl rfl) rfl rfl
      · exact .of_update hq (.inl rfl) rfl rfl
    · exact .of_update hq (.inl rfl) rfl rfl
    · exact .of_update hq (.inl rfl) rfl rfl
  | exitRead hmode | ack hmode => exact .of_update .refl (.inl rfl) rfl rfl
  | @exitRemove id base next slot hmode =>
    have hq : Treats s.nextThreadId none s.queue (s.queue.remove id).1 :=
      treats_remove h.wf (hm.2.1 id hm.1)
    exact .of_update hq (.inl rfl) rfl rfl
  | @exitStack op next slot hmode =>
    obtain ⟨hq, hcpus, -⟩ := stackStep_fixes s c a.ok op
    have htreats : Treats s.nextThreadId none s.queue (s.stackStep c a.ok op).1.queue :=
      hq ▸ .refl
    exact .of_update htreats (.inl rfl) (congrArg (fun cpus => update cpus c _) hcpus) rfl
  | switchTo hmode => exact h.switch_footprint hmode
  | @save old new hmode =>
    cases old with
    | none => exact .of_update .refl (.inl rfl) rfl rfl
    | some old =>
      obtain ⟨-, t, ht⟩ := hm
      unfold saveContext
      simp only [ht.here]
      exact .of_put rfl ht.here rfl rfl rfl rfl
  | load hmode =>
    obtain ⟨⟨t, ht⟩, -⟩ := hm
    unfold loadContext
    rw [ht.here]
    exact .of_put rfl ht.here rfl rfl rfl rfl

theorem Consistent.footprint (hstep : s.step l = some s') : s.Footprint l s' := by
  cases step_moves hstep with
  | step hstep => exact h.cpu_footprint hstep
  | @async op =>
    have hq : Treats s.nextThreadId none s.queue (op.apply s.queue) := treats_asyncOp h.wf op
    exact ⟨hq.spares, hq.buries, fun _ _ => rfl⟩
  | call | callNone | interrupt | setInterrupts | boot => exact .of_update .refl (.inl rfl) rfl rfl

omit h

/-! ## Counting down -/

/-- Code that leaves is code of a dead thread. -/
theorem leaves_dead {q : Queue n} {me : Option ThreadId} {code : List Frame}
    (hframes : ∀ f ∈ code, FrameInv q next c me f) (h : leaves current code = some k) : RunsDead q me := by
  induction code generalizing k with
  | nil => cases h
  | cons f rest ih =>
    have hf := hframes f List.mem_cons_self
    have hrest : ∀ g ∈ rest, FrameInv q next c me g := fun g hg => hframes g (List.mem_cons_of_mem f hg)
    have hown : ∀ id, me = some id ∧ Dead q id → RunsDead q me := by
      rintro id ⟨rfl, hdead⟩ _ ⟨⟩
      exact hdead
    -- Frames above the exit pass the question on to the code below them.
    have hmap : ∀ m, (leaves current rest).map (· + m) = some k → RunsDead q me := by
      intro m hm
      obtain ⟨j, hj, -⟩ := Option.map_eq_some_iff.mp hm
      exact ih hrest hj
    cases f with
    | terminate id =>
      simp only [leaves] at h
      split at h
      · rename_i hcond
        obtain ⟨j, hj⟩ := Option.isSome_iff_exists.mp hcond.2
        exact ih hrest hj
      · cases h
    | terminateSelf id pc => exact hown id hf
    | exit id pc =>
      cases pc with
      | clear | select => exact hown id hf
      | _ => cases h
    | restoreInterrupts b => exact hmap 1 h
    | yieldNow | stack op => exact hmap _ h
    | reclaim => exact hmap 3 h
    | _ => cases h

include h in
/-- A CPU that leaves executes a dead thread. -/
theorem Consistent.leaving_dead (hk : (s.cpus c).leaving = some k) : RunsDead s.queue (s.cpus c).running := by
  have hm := (h.cpu c).mode
  have hcode : ∀ j, leaves (s.cpus c).current (s.cpus c).code = some j →
      RunsDead s.queue (s.cpus c).running := fun j hj => leaves_dead (h.cpu c).frames hj
  have hmap : ∀ m, (leaves (s.cpus c).current (s.cpus c).code).map (· + m) = some k →
      RunsDead s.queue (s.cpus c).running := by
    intro m hj
    obtain ⟨j, hj, -⟩ := Option.map_eq_some_iff.mp hj
    exact hcode j hj
  unfold Cpu.leaving at hk
  split at hk
  · exact hcode k hk
  · exact hmap _ hk
  · exact hmap _ hk
  · exact hmap _ hk
  all_goals rename_i hmode
  · rw [hmode] at hm
    exact hm.2
  · rw [hmode] at hm
    exact hm.2.1
  · rw [hmode] at hm
    exact hm.2.1
  · rw [hmode] at hm
    exact hm.1
  · rw [hmode] at hm
    exact hm.1
  · cases hk

/-- CPU `c` is at most `k` of its steps away from the load of its successor. -/
inductive Nearing (s : State n) (c : Fin n) : Nat → Prop where
  | leaving {j : Nat} : (s.cpus c).leaving = some j → Nearing s c j
  | save {old new} {next : ThreadId} : (s.cpus c).mode = .save old new → (s.cpus c).current = some next →
      RunsDead s.queue (s.cpus c).running → s.queue.Live next → Nearing s c 1
  | load {new} {next : ThreadId} : (s.cpus c).mode = .load new → (s.cpus c).current = some next →
      RunsDead s.queue (s.cpus c).running → s.queue.Live next → Nearing s c 0

/-- CPU `c` has just begun to execute a live thread. -/
def ExecutesLive (s : State n) (c : Fin n) : Prop :=
  ∃ x b, (s.cpus c).mode = .ack b ∧ (s.cpus c).running = some x ∧ s.queue.Live x

/-- The CPU's new record, and what it says about the exit. -/
theorem Nearing.of_leaving {j : Nat} (hcpus : s'.cpus = update s.cpus c cpu)
    (hj : cpu.leaving = some j) : s'.Nearing c j := by
  refine .leaving ?_
  rw [hcpus, update_self]
  exact hj

/-- A frame brings the exit forward. -/
theorem frameMoves_nears {cpu' : Cpu} {f : Frame} {rest : List Frame} (h : CpuExit cpu)
    (hmode : cpu.mode = .run) (hcode : cpu.code = f :: rest) (hmoves : FrameMoves cpu rest f cpu')
    (hk : leaves cpu.current (f :: rest) = some k) : ∃ j, cpu'.leaving = some j ∧ j < k := by
  have hshield := h.shields
  rw [hmode, hcode] at hshield
  cases hmoves with
  | go _ hgo =>
    obtain ⟨j, hj, hlt⟩ := hgo.rank k hk
    refine ⟨j, ?_, hlt⟩
    simp only [Cpu.leaving, hmode]
    exact hj
  | yield =>
    obtain ⟨j, hj, rfl⟩ := Option.map_eq_some_iff.mp hk
    refine ⟨j + 1 + if cpu.current = none then 3 else 14, ?_, ?_⟩
    · simp only [Cpu.leaving, leaves, hj, Option.map_some]
    · split <;> omega
  | start | fail => cases hk
  | clearSelf =>
    cases hk
    refine ⟨5, ?_, by decide⟩
    simp only [Cpu.leaving, hmode]
    rfl
  | clearExit =>
    cases hk
    refine ⟨10, ?_, by decide⟩
    simp only [Cpu.leaving, hmode]
    rfl
  | select =>
    cases hk
    exact ⟨9, rfl, by decide⟩
  | halts hdead => cases (hshield.1 hdead).1

/-- A published switch is one step from the load. -/
theorem Nearing.of_publish {old : Option Slot} {new : Slot}
    {t : Thread (Fin n) Context} (ht : s.queue.threads new = some t) (hid : t.id = x)
    (halive : t.state ≠ .terminated) (hdead : RunsDead s.queue (s.cpus c).running) :
    (s.setCpu c { s.cpus c with
        switchingFrom := current
        current := some x
        currentSlot := some new
        mode := .save old new }).Nearing c 1 := by
  refine .save (congrArg Cpu.mode (setCpu_self s c _)) (congrArg Cpu.current (setCpu_self s c _)) ?_
    ⟨new, t, ht, hid, halive⟩
  rw [setCpu_self]
  exact hdead

include h

theorem Nearing.switchStep
    (hl : s.Leaving)
    (hmode : (s.cpus c).mode = .switchTo current next slot after) (hk : (s.cpus c).leaving = some k) :
    ∃ j, (s.switchStep c current next slot after a.ok).Nearing c j ∧ j < k := by
  have hm := h.modeInv hmode
  have hdead := h.leaving_dead hk
  have hmoves := h.switchStep_switches hmode a.ok
  generalize s.switchStep c current next slot after a.ok = s' at hmoves ⊢
  -- A CPU that leaves returns to its code, or depends on the switch.
  have hcases : (∃ j m, after = .resume ∧ leaves (s.cpus c).current (s.cpus c).code = some j ∧ k = j + m ∧
      ((current = none ∧ m = 2) ∨ (∃ id, current = some id ∧ m = 13))) ∨
      (after = .halt .exitSwitchReturned ∧ current = none ∧ k = 2) := by
    simp only [Cpu.leaving, hmode] at hk
    cases after with
    | resume =>
      cases current with
      | none =>
        obtain ⟨j, hj, rfl⟩ := Option.map_eq_some_iff.mp hk
        exact .inl ⟨j, 2, rfl, hj, rfl, .inl ⟨rfl, rfl⟩⟩
      | some id =>
        obtain ⟨j, hj, rfl⟩ := Option.map_eq_some_iff.mp hk
        exact .inl ⟨j, 13, rfl, hj, rfl, .inr ⟨id, rfl, rfl⟩⟩
    | halt r =>
      cases current with
      | none =>
        cases r with
        | exitSwitchReturned =>
          cases hk
          exact .inr ⟨rfl, rfl, rfl⟩
        | _ => cases hk
      | some id => cases hk
  have hpos : 2 ≤ k := by
    rcases hcases with ⟨j, m, -, -, rfl, ⟨-, rfl⟩ | ⟨-, -, rfl⟩⟩ | ⟨-, -, rfl⟩ <;> omega
  cases hmoves with
  | publish ht hid halive _ => exact ⟨1, .of_publish ht hid halive hdead, by omega⟩
  | refuse hgone =>
    rcases hcases with ⟨j, m, rfl, hj, rfl, hm'⟩ | ⟨rfl, rfl, -⟩
    · have hback : Cpu.leaving { s.cpus c with mode := .run } = some j := hj
      refine ⟨j, .of_leaving rfl hback, ?_⟩
      rcases hm' with ⟨-, rfl⟩ | ⟨-, -, rfl⟩ <;> omega
    · exact absurd (hl.heir c next (by simp only [Cpu.heir, hmode])) (hgone rfl)
  | @guard id =>
    rcases hcases with ⟨j, m, rfl, hj, rfl, ⟨hnone, -⟩ | ⟨x, hx, rfl⟩⟩ | ⟨-, hnone, -⟩
    · cases hnone
    · refine ⟨12, ?_, by omega⟩
      rw [State.switchReturns, setMode_setCode]
      exact .of_leaving rfl (if_pos ⟨hm.1, Option.isSome_iff_exists.mpr ⟨j, hj⟩⟩)
    · cases hnone

/-- Stepping from the selection of an exit, or of a yield of the exiting thread. -/
theorem Nearing.selectStep {purpose : SelectFor} (hok : s.sparing (.step c a) = true)
    (hmode : (s.cpus c).mode = .select purpose) (hk : (s.cpus c).leaving = some k) :
    ∃ j, (s.selectStep c purpose).Nearing c j ∧ j < k := by
  have hmoves := selectStep_selects (s := s) (c := c) purpose
  generalize s.selectStep c purpose = s' at hmoves ⊢
  simp only [Cpu.leaving, hmode] at hk
  cases hmoves with
  | nothing _ | itself _ _ =>
    obtain ⟨j, hj, rfl⟩ := Option.map_eq_some_iff.mp hk
    have hback : Cpu.leaving { s.cpus c with mode := .run } = some j := hj
    refine ⟨j, .of_leaving rfl hback, ?_⟩
    split <;> omega
  | @other next slot _ =>
    obtain ⟨j, hj, rfl⟩ := Option.map_eq_some_iff.mp hk
    cases hcur : (s.cpus c).current with
    | none =>
      have hgo : Cpu.leaving { s.cpus c with mode := .switchTo none next slot .resume } = some (j + 2) := by
        simp only [Cpu.leaving, hj, Option.map_some]
      exact ⟨j + 2, .of_leaving rfl hgo, Nat.lt_succ_self _⟩
    | some id =>
      have hgo : Cpu.leaving { s.cpus c with mode := .switchTo (some id) next slot .resume } =
        some (j + 13) := by
        simp only [Cpu.leaving, hj, Option.map_some]
      exact ⟨j + 13, .of_leaving rfl hgo, Nat.lt_succ_self _⟩
  | exitNothing hnone =>
    have hfound := sparing_select h hok (by simp only [Cpu.lastSelect, hmode]) (s.cpus c).current
    rw [hnone] at hfound
    cases hfound
  | @exitOther id _ next slot _ =>
    cases hk
    have hgo : Cpu.leaving { s.cpus c with mode := .exitRead id next slot } = some 8 := rfl
    exact ⟨8, .of_leaving rfl hgo, by decide⟩

/-- **A step of the CPU itself brings it closer**, or it has arrived. -/
theorem Nearing.cpuStep (hl : s.Leaving) (hok : s.sparing (.step c a) = true)
    (hn : s.Nearing c k) (hstep : s.cpuStep c a = some s') :
    s'.ExecutesLive c ∨ ∃ j, s'.Nearing c j ∧ j < k := by
  have hfoot := h.cpu_footprint hstep
  cases hn with
  | @save old new next hmode hcur hdead hlive =>
    right
    simp only [State.cpuStep, hmode] at hstep
    have hlive' : s'.queue.Live next := hfoot.spares.live hlive (by simp only [victim, hmode]; nofun)
    have hdead' : RunsDead s'.queue (s.cpus c).running :=
      fun id hid => hfoot.buries.dead (hdead id hid) ((h.cpu c).fresh id hid)
    cases hstep
    refine ⟨0, .load (congrArg Cpu.mode (setCpu_self _ c _)) ?_ ?_ hlive', by decide⟩
    · rw [setCpu_self]
      exact hcur
    · rw [setCpu_self]
      exact hdead'
  | @load new next hmode hcur hdead hlive =>
    left
    simp only [State.cpuStep, hmode] at hstep
    have hlive' : s'.queue.Live next := hfoot.spares.live hlive (by simp only [victim, hmode]; nofun)
    have hm := h.modeInv hmode
    obtain ⟨⟨t, ht⟩, -⟩ := hm
    have hnext : t.id = next := Option.some.inj (ht.announced.symm.trans hcur)
    cases hstep
    unfold loadContext at hlive' ⊢
    simp only [ht.here] at hlive' ⊢
    refine ⟨next, _, congrArg Cpu.mode (setCpu_self _ c _), ?_, hlive'⟩
    rw [setCpu_self, hnext]
  | leaving hk =>
    right
    cases cpuStep_moves hstep with
    | run hmode hcode =>
      obtain ⟨⟨cpu, hcpus, hmoves⟩, -⟩ := runFrame_moves h hcode a
      simp only [Cpu.leaving, hmode, hcode] at hk
      obtain ⟨j, hj, hlt⟩ := frameMoves_nears (hl.cpu c) hmode hcode hmoves hk
      exact ⟨j, .of_leaving hcpus hj, hlt⟩
    | select hmode => exact selectStep h hok hmode hk
    | exitRead hmode =>
      simp only [Cpu.leaving, hmode] at hk
      cases hk
      exact ⟨7, .of_leaving rfl rfl, by decide⟩
    | @exitRemove id base next slot hmode =>
      simp only [Cpu.leaving, hmode] at hk
      cases hk
      cases base with
      | none => exact ⟨2, .of_leaving rfl rfl, by decide⟩
      | some base => exact ⟨6, .of_leaving rfl rfl, by decide⟩
    | @exitStack op next slot hmode =>
      simp only [Cpu.leaving, hmode] at hk
      cases hk
      have hsteps : 0 < op.steps := by cases op <;> exact Nat.succ_pos _
      cases hnext : (s.stackStep c a.ok op).2 with
      | none =>
        refine ⟨2, .leaving ?_, by omega⟩
        rw [setMode, setCpu_self]
        rfl
      | some op' =>
        refine ⟨op'.steps + 2, .leaving ?_, Nat.add_lt_add_right (stackStep_steps hnext) 2⟩
        rw [setMode, setCpu_self]
        rfl
    | switchTo hmode => exact switchStep h hl hmode hk
    | save hmode | load hmode | ack hmode =>
      simp only [Cpu.leaving, hmode] at hk
      cases hk

/-- No admissible step ends the successor of a CPU that executes a dead thread. -/
theorem Consistent.step_victim_ne (hok : s.sparing l = true)
    (hdead : RunsDead s.queue (s.cpus c).running) (hx : (s.cpus c).successor = some x)
    (hlive : s.queue.Live x) : s.victim l ≠ some x := by
  cases l with
  | step d a =>
    simp only [victim]
    split
    · rename_i f rest hmode hcode
      exact h.victim_ne hok hmode hcode hdead hx hlive
    · nofun
  | _ => nofun

/-- Steps of the others do not take the CPU back. -/
theorem Nearing.others (hok : s.sparing l = true) (hn : s.Nearing c k)
    (hstep : s.step l = some s') (hl : l.cpu ≠ some c) : s'.Nearing c k := by
  have hfoot := h.footprint hstep
  have hcpu := hfoot.others c hl
  have hdead' : RunsDead s.queue (s.cpus c).running → RunsDead s'.queue (s'.cpus c).running := by
    intro hdead id hid
    rw [hcpu] at hid
    exact hfoot.buries.dead (hdead id hid) ((h.cpu c).fresh id hid)
  cases hn with
  | leaving hk => exact .leaving (hcpu ▸ hk)
  | save hmode hcur hdead hlive =>
    have hsucc : (s.cpus c).successor = (s.cpus c).current := by simp only [Cpu.successor, hmode]
    refine .save (hcpu ▸ hmode) (hcpu ▸ hcur) (hdead' hdead) ?_
    exact hfoot.spares.live hlive (h.step_victim_ne hok hdead (hsucc.trans hcur) hlive)
  | load hmode hcur hdead hlive =>
    have hsucc : (s.cpus c).successor = (s.cpus c).current := by simp only [Cpu.successor, hmode]
    refine .load (hcpu ▸ hmode) (hcpu ▸ hcur) (hdead' hdead) ?_
    exact hfoot.spares.live hlive (h.step_victim_ne hok hdead (hsucc.trans hcur) hlive)

omit h

/-- A CPU that runs frames and is on its way out has code. -/
theorem Nearing.run (hn : s.Nearing c k) (hmode : (s.cpus c).mode = .run) :
    leaves (s.cpus c).current (s.cpus c).code = some k := by
  cases hn with
  | leaving hk =>
    simp only [Cpu.leaving, hmode] at hk
    exact hk
  | save hm | load hm => exact absurd (hmode.symm.trans hm) nofun

/-- A timer interrupt takes the CPU back by what its handler does at most. -/
theorem Nearing.interrupt {reschedule : Bool} (hn : s.Nearing c k) (hmode : (s.cpus c).mode = .run) :
    ∃ j, (s.setCpu c { s.cpus c with
        interrupts := false
        code := .reclaim :: ((if reschedule then [.yieldNow] else []) ++
          .restoreInterrupts true :: (s.cpus c).code) }).Nearing c j ∧ j ≤ k + 20 := by
  have hk := hn.run hmode
  cases reschedule with
  | false =>
    refine ⟨k + 1 + 3, .of_leaving rfl ?_, by omega⟩
    simp only [Cpu.leaving, hmode, Bool.false_eq_true, if_false, List.nil_append, leaves, hk, Option.map_some]
  | true =>
    refine ⟨k + 1 + (if (s.cpus c).current = none then 5 else 16) + 3, .of_leaving rfl ?_, ?_⟩
    · simp only [Cpu.leaving, hmode, if_true, List.singleton_append, leaves, hk, Option.map_some]
    · split <;> omega

include h in
/-- **One step of a run**, seen by a CPU on its way out. -/
theorem Nearing.step (hl : s.Leaving) (hok : s.sparing l = true) (hn : s.Nearing c k)
    (hstep : s.step l = some s') : s'.ExecutesLive c ∨ ∃ j, s'.Nearing c j ∧
      j + (if l.isStep c then 1 else 0) ≤ k + if l.isInterrupt c then 20 else 0 := by
  by_cases hcpu : l.cpu = some c
  · cases step_moves hstep with
    | step hstep =>
      cases hcpu
      rcases cpuStep h hl hok hn hstep with hdone | ⟨j, hj, hlt⟩
      · exact .inl hdone
      · refine .inr ⟨j, hj, ?_⟩
        simp only [Label.isStep, Label.isInterrupt, decide_true, if_true, Bool.false_eq_true, if_false]
        omega
    | interrupt hmode =>
      cases hcpu
      obtain ⟨j, hj, hle⟩ := interrupt hn hmode
      refine .inr ⟨j, hj, ?_⟩
      simp only [Label.isStep, Label.isInterrupt, decide_true, if_true, Bool.false_eq_true, if_false]
      exact hle
    | call hmode hcode | callNone hmode hcode | setInterrupts hmode hcode =>
      -- there is no code to leave with
      cases hcpu
      have hk := hn.run hmode
      rw [hcode] at hk
      cases hk
    | async => cases hcpu
    | boot hmode =>
      cases hcpu
      cases hn with
      | leaving hk =>
        simp only [Cpu.leaving, hmode] at hk
        cases hk
      | save hm | load hm => exact absurd (hmode.symm.trans hm) nofun
  · refine .inr ⟨k, hn.others h hok hstep hcpu, ?_⟩
    have hstep' : l.isStep c = false := by
      cases l with
      | step d a => exact decide_eq_false fun hd => hcpu (hd ▸ rfl)
      | _ => rfl
    rw [hstep']
    exact Nat.le_add_right k _

/-- A CPU on its way out can always go on. -/
theorem Nearing.enabled (hn : s.Nearing c k) (a : Answer) : (s.cpuStep c a).isSome := by
  unfold State.cpuStep
  cases hn with
  | save hmode | load hmode =>
    rw [hmode]
    rfl
  | leaving hk =>
    cases hmode : (s.cpus c).mode with simp only [Cpu.leaving, hmode] at hk
    | run =>
      cases hcode : (s.cpus c).code with
      | nil =>
        rw [hcode] at hk
        cases hk
      | cons f rest => rfl
    | halt r | wild | offline =>
      cases hk
    | _ => rfl

end State

/-! ## Whole runs -/

/-- **An exiting CPU ends up executing a live thread.** In every state of a run of sparing steps, on any
    number of CPUs, no CPU is in a halt at the end of an exit. And take a CPU on its way out of a thread that
    was marked terminated, `k` steps from the end. Every continuation of the run passes through a state in
    which the CPU begins to execute a live thread; or it is not there yet, and then it can go on and has
    taken at most `k` steps, and 20 for each timer interrupt. -/
theorem exiting_cpu_reaches_live_thread {s : State n}
    (h : (scheduler n).Reach (fun s l => s.sparing l = true) s) :
    (∀ c r, (s.cpus c).mode = .halt r → r.ofExit = false) ∧ ∀ c k, (s.cpus c).leaving = some k →
        ∀ ls s', (scheduler n).exec State.sparing s ls = some s' →
          (∃ ls₁ ls₂ s₁, ls = ls₁ ++ ls₂ ∧ (scheduler n).exec State.sparing s ls₁ = some s₁ ∧
            s₁.ExecutesLive c) ∨ ((∀ a, (s'.cpuStep c a).isSome) ∧
            ls.countP (Label.isStep c) ≤ k + 20 * ls.countP (Label.isInterrupt c)) := by
  have hinv : s.Consistent ∧ s.Leaving := by
    refine System.Reach.invariant (I := fun s => s.Consistent ∧ s.Leaving) ?_ ?_ h
    · rintro _ ⟨bsp, rfl⟩
      exact ⟨State.consistent_initial bsp, State.leaving_initial bsp⟩
    · intro s l s' hs hok hstep
      exact ⟨hs.1.step hstep, hs.2.step hs.1 hok hstep⟩
  refine ⟨fun c r hr => (hinv.2.cpu c).halted r hr, fun c k hk ls s' hrun => ?_⟩
  have hstep : ∀ k (s : State n) l s', (s.Consistent ∧ s.Leaving ∧ s.Nearing c k) → s.sparing l = true →
      (scheduler n).step s l = some s' → s'.ExecutesLive c ∨
        ∃ j, (s'.Consistent ∧ s'.Leaving ∧ s'.Nearing c j) ∧
          j + (if l.isStep c then 1 else 0) ≤ k + if l.isInterrupt c then 20 else 0 := by
    intro k s l s' ⟨hc, hl, hn⟩ hok hstep
    rcases hn.step hc hl hok hstep with hdone | ⟨j, hj, hle⟩
    · exact .inl hdone
    · exact .inr ⟨j, ⟨hc.step hstep, hl.step hc hok hstep, hj⟩, hle⟩
  rcases System.exec_progress hstep ⟨hinv.1, hinv.2, .leaving hk⟩ hrun with hdone | ⟨j, ⟨-, -, hn⟩, hle⟩
  · exact .inl hdone
  · exact .inr ⟨hn.enabled, Nat.le_trans (Nat.le_add_left _ j) hle⟩

/-! ## Two CPUs -/

/-- Thread 3 runs on CPU 1 and exits; it is marked terminated. -/
def exitOnOne : List (Label 2) :=
  spawnTwo ++ [.call 1 .yieldNow] ++ goOn 1 6 ++ [.call 1 .exitTask] ++ goOn 1 2

/-- Undisturbed, CPU 1 goes on to thread 4 in ten steps. -/
theorem exiting_cpu_reaches_live_thread_exitOnOne :
    ∃ s, (scheduler 2).Reach (fun s l => s.sparing l = true) s ∧ (s.cpus 1).leaving = some 11 ∧
      ((∃ ls₁ ls₂ s₁, goOn 1 10 = ls₁ ++ ls₂ ∧ (scheduler 2).exec State.sparing s ls₁ = some s₁ ∧
          s₁.ExecutesLive 1) ∨ ∃ s', (scheduler 2).exec State.sparing s (goOn 1 10) = some s' ∧
          ∀ a, (s'.cpuStep 1 a).isSome) := by
  obtain ⟨s, hs, hp⟩ := System.reach_of_exec (scheduler 2) State.sparing (State.initial 0) exitOnOne
    (fun s => (s.cpus 1).leaving = some 11 ∧ ((scheduler 2).exec State.sparing s (goOn 1 10)).isSome)
    ⟨0, rfl⟩ (by decide +kernel)
  obtain ⟨s', hs'⟩ := Option.isSome_iff_exists.mp hp.2
  refine ⟨s, hs, hp.1, ?_⟩
  rcases (exiting_cpu_reaches_live_thread hs).2 1 11 hp.1 _ s' hs' with hdone | ⟨hgo, -⟩
  · exact .inl hdone
  · exact .inr ⟨s', hs', hgo⟩

/-- **The CPU halts for good**: CPU 1 has selected thread 4 when CPU 0 terminates that. Its idle thread 2 is
    ready all the time. -/
theorem exiting_cpu_halts : ∃ s, (scheduler 2).Reachable s ∧ (s.cpus 1).mode = .halt .exitSwitchReturned ∧
      s.runnableOn 1 = true := by
  exact System.reachable_of_exec (scheduler 2) (State.initial 0)
    (exitOnOne ++ goOn 1 3 ++ [.call 0 (.terminate 4)] ++ goOn 0 1 ++ goOn 1 5) _ ⟨0, rfl⟩ (by decide +kernel)

end Mnu.Task
