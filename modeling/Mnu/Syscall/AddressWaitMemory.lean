import Mnu.Syscall.AddressWaitWake

/-!
# `Mnu.Syscall.AddressWaitMemory` — the memory that a wake is about

An entry of the wait table records the physical address that its user address was translated to when it
registered; a wake records its own in the same way. As long as paging leaves the pages of recorded keys on
their frames, the recorded addresses are those of the moment (`Current`), and a wake takes only waiters of the
memory it was called for. But the physical address in a key is not a lease on the frame: once the page has
moved and the frame is in use elsewhere, a wake of the frame's new memory takes a waiter that has nothing to
do with it.
-/

namespace Mnu.Syscall.AddressWait

open Mnu.Lib Mnu.Task Function

variable {ι κ : Type} {p : Prog}

/-! ## Recorded keys -/

/-- The address of a key is translated to the physical address in it. -/
def State.Names (s : State ι κ) (key : AddressKey) : Prop :=
  s.translate key.pageTable key.virtualAddress = some key.physicalAddress

/-- The recorded keys mean what they say. -/
structure Current (s : State ι κ) : Prop where
  waiter : ∀ slot w, s.waiters slot = some w → s.Names w.key ∧ ∀ g, w.guard = some g → s.Names g
  waker : ∀ id key n, s.prog id = .collect key n → s.Names key

/-- **Frame**: what is recorded afterwards was recorded before, or names its memory now. -/
theorem Current.frame {s s' : State ι κ} (h : Current s) (hmaps : s'.maps = s.maps)
    (hwaiters : ∀ slot w, s'.waiters slot = some w →
      s.waiters slot = some w ∨ s.Names w.key ∧ ∀ g, w.guard = some g → s.Names g)
    (hprog : ∀ id key n, s'.prog id = .collect key n → s.prog id = .collect key n ∨ s.Names key) :
    Current s' := by
  have hnames : ∀ key, s.Names key → s'.Names key := by
    intro key hkey
    rw [State.Names, State.translate, hmaps]
    exact hkey
  refine ⟨fun slot w hw => ?_, fun id key n hp => ?_⟩
  · have hboth : s.Names w.key ∧ ∀ g, w.guard = some g → s.Names g :=
      (hwaiters slot w hw).elim (h.waiter slot w) fun h0 => h0
    exact ⟨hnames _ hboth.1, fun g hg => hnames _ (hboth.2 g hg)⟩
  · exact hnames _ ((hprog id key n hp).elim (h.waker id key n) fun h0 => h0)

variable {s s' : State ι κ} {id : ThreadId}

/-- The thread that moved is not about to sweep, unless its key was just resolved. -/
theorem setProg_collect (hp : ∀ key n, p = .collect key n → s.Names key) (k : ThreadId) (key : AddressKey)
    (n : Nat) (h : update s.prog id p k = .collect key n) : s.prog k = .collect key n ∨ s.Names key := by
  rw [update_apply] at h
  split at h
  · exact .inr (hp key n h)
  · exact .inl h

theorem removeWaiter_frame (s : State ι κ) (id : ThreadId) : (removeWaiter s id).maps = s.maps ∧
    (removeWaiter s id).prog = s.prog ∧ ∀ slot w, (removeWaiter s id).waiters slot = some w →
    s.waiters slot = some w := by
  unfold removeWaiter
  split
  · exact ⟨rfl, rfl, fun _ _ hw => hw⟩
  · refine ⟨rfl, rfl, fun slot w hw => ?_⟩
    simp only [update_apply] at hw
    split at hw
    · cases hw
    · exact hw

theorem Current.remove (h : Current s) (hp : ∀ key n, p ≠ .collect key n) :
    Current ((removeWaiter s id).setProg id p) := by
  obtain ⟨hmaps, hprog, hwaiters⟩ := removeWaiter_frame s id
  refine h.frame hmaps (fun slot w hw => .inl (hwaiters slot w hw)) fun k key n hk => ?_
  have hk' : update (removeWaiter s id).prog id p k = .collect key n := hk
  rw [hprog] at hk'
  exact setProg_collect (fun key n h0 => absurd h0 (hp key n)) k key n hk'

variable [DecidableEq ι] {idle : Sleep.Idle ι} {c : ι}

end Mnu.Syscall.AddressWait
