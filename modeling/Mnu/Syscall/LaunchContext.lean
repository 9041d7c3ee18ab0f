import Mnu.Ipc.Receive
import Mnu.Task.LaunchContext

/-!
# `Mnu.Syscall.LaunchContext` — the launch context beside the handle table

The context names selectors of the handle table, and selectors are reused. This module has every call of a
process that changes one of the two (`src/syscall/handle.rs`, `src/syscall/exec.rs`, `src/syscall/ipc.rs`,
`src/mem/writeback_worker.rs`), each cut into its sections under the process lock, and the threads that take
these sections in any order.

`stream_pair_create` lets go of the lock between the insertion of its two handles and the copy of their
selectors to the caller; if the copy fails it closes the selectors again, and does not look at the context. An
image replacement prepares the new context in one section and commits it in another; in between its siblings
stand still.

A table changes mostly by operations that leave its live entries as they are (`Keeps`); the others are
`close`, the cleanup of `stream_pair_create` and the selection of handles for the next image.
-/

namespace Mnu.Syscall.Launch

open Mnu.Lib Mnu.Task Function

variable {ω : Type}

/-- The errors of these calls among those of `Error`. -/
inductive Error where
  | accessDenied
  | alreadyExists
  | invalidArgument
  | resourceUnavailable
  deriving DecidableEq, Repr

/-- The error of a call for that of a context. -/
def Error.ofContext : ContextError → Error
  | .alreadyExists => .alreadyExists
  | .invalidArgument => .invalidArgument
  | .resourceUnavailable => .resourceUnavailable

/-- Of a process, what these calls read and write. -/
structure Process (ω : Type) where
  objectHandles : ObjectHandleTable ω
  launchContext : LaunchContext

/-! ## The calls -/

/-- The section of every call that creates an object. -/
def create (p : Process ω) (entry : ObjectHandleEntry ω) (room : Bool) : Process ω × Except Error Nat :=
  match p.objectHandles.insert entry room with
  | (table, some handle) => ({ p with objectHandles := table }, .ok handle)
  | (table, none) => ({ p with objectHandles := table }, .error .resourceUnavailable)

/-- `submit` of the writeback worker: the handle is taken back if the job is not admitted. -/
def submit (p : Process ω) (entry : ObjectHandleEntry ω) (room admitted : Bool) :
    Process ω × Except Error Nat :=
  match p.objectHandles.insert entry room with
  | (table, none) => ({ p with objectHandles := table }, .error .resourceUnavailable)
  | (table, some handle) =>
    if admitted then ({ p with objectHandles := table }, .ok handle)
    else ({ p with objectHandles := (table.takeEntry handle).1 }, .error .resourceUnavailable)

/-- `close`: the context gives the handle up as well. -/
def close (p : Process ω) (raw : Nat) : Process ω × Except Error Unit :=
  match objectHandle raw with
  | none => (p, .error .invalidArgument)
  | some handle =>
    match p.objectHandles.takeEntry handle with
    | (_, none) => (p, .error .invalidArgument)
    | (table, some _) => (⟨table, p.launchContext.removeHandle handle⟩, .ok ())

/-- `duplicate`. -/
def duplicate (p : Process ω) (raw : Nat) (rights : HandleRights) (room : Bool) :
    Process ω × Except Error Nat :=
  match objectHandle raw with
  | none => (p, .error .invalidArgument)
  | some handle =>
    match p.objectHandles.get handle with
    | none => (p, .error .invalidArgument)
    | some source =>
      if !source.rights.contains .duplicate || !source.rights.contains rights then (p, .error .accessDenied)
      else
        match p.objectHandles.duplicateEntry handle rights with
        | none => (p, .error .resourceUnavailable)
        | some entry => create p entry room

/-- `context_handle_set` -/
def contextHandleSet (p : Process ω) (key raw : Nat) (room : Bool) : Process ω × Except Error Unit :=
  match objectHandle raw with
  | none => (p, .error .invalidArgument)
  | some handle =>
    if (p.objectHandles.get handle).isNone then (p, .error .invalidArgument)
    else
      match p.launchContext.set key handle room with
      | none => (p, .error .resourceUnavailable)
      | some context => ({ p with launchContext := context }, .ok ())

/-- `context_handle_remove` -/
def contextHandleRemove (p : Process ω) (key : Nat) : Process ω :=
  { p with launchContext := p.launchContext.take key }

/-- `context_value_set` -/
def contextValueSet (p : Process ω) (key value : Nat) (room : Bool) : Process ω × Except Error Unit :=
  match p.launchContext.setValue key value room with
  | none => (p, .error .resourceUnavailable)
  | some context => ({ p with launchContext := context }, .ok ())

/-- `context_value_remove` -/
def contextValueRemove (p : Process ω) (key : Nat) : Process ω :=
  { p with launchContext := p.launchContext.removeValue key }

/-- Rights of the reading end. -/
def readEndRights : HandleRights :=
  ((HandleRights.read.union .wait).union .control).union .duplicate |>.union .transfer

/-- Rights of the writing end. -/
def writeEndRights : HandleRights :=
  ((HandleRights.write.union .wait).union .control).union .duplicate |>.union .transfer

/-- The section of `stream_pair_create` that inserts both ends, or none. -/
def streamPair (p : Process ω) (read write : ω) (roomRead roomWrite : Bool) :
    Process ω × Option (Nat × Nat) :=
  match p.objectHandles.insert ⟨read, readEndRights⟩ roomRead with
  | (table, none) => ({ p with objectHandles := table }, none)
  | (table, some read) =>
    match table.insert ⟨write, writeEndRights⟩ roomWrite with
    | (table, none) => ({ p with objectHandles := (table.takeEntry read).1 }, none)
    | (table, some write) => ({ p with objectHandles := table }, some (read, write))

/-- Its section after a failed copy. -/
def streamPairCleanup (p : Process ω) (read write : Nat) : Process ω :=
  { p with objectHandles := ((p.objectHandles.takeEntry read).1.takeEntry write).1 }

/-- The new context of an image replacement, if it changes. -/
def nextContext (p : Process ω) (updates : List ContextUpdate) (copied room : Bool) :
    Except Error (Option LaunchContext) :=
  match updates with
  | [] => .ok none
  | updates =>
    match p.launchContext.patched updates (fun handle => (p.objectHandles.get handle).isSome) copied room with
    | .ok context => .ok (some context)
    | .error e => .error (.ofContext e)

/-- `retain_launch_context_handles_for_exec` -/
def Process.retainLaunchContextHandlesForExec (p : Process ω) : Process ω :=
  { p with objectHandles := (p.objectHandles.retain p.launchContext.referencesHandle).1 }

/-- The commit of an image replacement. -/
def commitImage (p : Process ω) (next : Option LaunchContext) : Process ω :=
  { p with launchContext := next.getD p.launchContext }.retainLaunchContextHandlesForExec

/-- `InheritedHandleGrant` -/
structure InheritedHandleGrant (ω : Type) where
  key : Nat
  /-- The selector that is asked for, or zero. -/
  target : Nat
  entry : ObjectHandleEntry ω

/-- Where a grant goes: to the selector that it asks for, or to a free one. -/
def placeGrant (t : ObjectHandleTable ω) (grant : InheritedHandleGrant ω) (room : Bool) :
    Except Error (ObjectHandleTable ω × Nat) :=
  if grant.target = 0 then
    match t.insert grant.entry room with
    | (table, some handle) => .ok (table, handle)
    | (_, none) => .error .resourceUnavailable
  else if processMaxObjectHandles < grant.target then .error .invalidArgument
  else if (t.get grant.target).isSome then .error .alreadyExists
  else
    match t.insertAt grant.target grant.entry room with
    | (table, true) => .ok (table, grant.target)
    | (_, false) => .error .resourceUnavailable

/-- The body of the loop of `install_inherited_handles`. -/
def installInheritedHandle (room : Bool) (p : Process ω) (grant : InheritedHandleGrant ω) :
    Except Error (Process ω) :=
  if (p.launchContext.get grant.key).isSome then .error .alreadyExists
  else do
    let (table, handle) ← placeGrant p.objectHandles grant room
    match p.launchContext.install grant.key handle room with
    | .ok context => .ok ⟨table, context⟩
    | .error e => .error (.ofContext e)

/-- `install_inherited_handles`: grants with a selector first. -/
def installInheritedHandles (p : Process ω) (grants : List (InheritedHandleGrant ω)) (room : Bool) :
    Except Error (Process ω) :=
  (grants.filter (fun grant => grant.target ≠ 0) ++ grants.filter fun grant => grant.target = 0).foldlM
    (installInheritedHandle room) p

/-- The body of the loop of `install_inherited_values`. -/
def installInheritedValue (room : Bool) (p : Process ω) (value : Nat × Nat) : Except Error (Process ω) :=
  match p.launchContext.installValue value.1 value.2 room with
  | .ok context => .ok { p with launchContext := context }
  | .error e => .error (.ofContext e)

/-- `install_inherited_values`, by key and value. -/
def installInheritedValues (p : Process ω) (values : List (Nat × Nat)) (room : Bool) :
    Except Error (Process ω) :=
  values.foldlM (installInheritedValue room) p

/-! ## Threads -/

/-- Where a thread is between two sections. -/
inductive Prog where
  /-- There is no such thread, not yet or no longer. -/
  | absent
  | user
  /-- In `stream_pair_create`, before the copy. -/
  | streamPair (read write : Nat)
  /-- In an image replacement, with its siblings stopped. -/
  | replacing
  /-- With the new context prepared. -/
  | prepared (next : Option LaunchContext)

/-- The thread replaces the image. -/
def Prog.replaces : Prog → Bool
  | .replacing => true
  | .prepared _ => true
  | _ => false

/-- A process, and its threads. -/
structure State (ω : Type) where
  process : Process ω
  prog : Nat → Prog
  /-- The thread that has stopped its siblings. -/
  owner : Option Nat

/-- A thread goes on. -/
def State.setProg (s : State ω) (t : Nat) (p : Prog) : State ω := { s with prog := update s.prog t p }

/-- What a thread calls when it is in user mode: one section each. -/
inductive Call (ω : Type) where
  | create (entry : ObjectHandleEntry ω) (room : Bool)
  | submit (entry : ObjectHandleEntry ω) (room admitted : Bool)
  | close (raw : Nat)
  | duplicate (raw : Nat) (rights : HandleRights) (room : Bool)
  | contextHandleSet (key raw : Nat) (room : Bool)
  | contextHandleRemove (key : Nat)
  | contextValueSet (key value : Nat) (room : Bool)
  | contextValueRemove (key : Nat)
  /-- The sections of a receive: reservations, and their publication or cancellation. -/
  | reserve (owner : Nat) (entry : ObjectHandleEntry ω) (room : Bool)
  | publish (tickets : List HandleReservation)
  | cancel (ticket : HandleReservation)

/-- What a call does to the process. -/
def Call.run (p : Process ω) : Call ω → Process ω
  | .create entry room => (Launch.create p entry room).1
  | .submit entry room admitted => (Launch.submit p entry room admitted).1
  | .close raw => (Launch.close p raw).1
  | .duplicate raw rights room => (Launch.duplicate p raw rights room).1
  | .contextHandleSet key raw room => (Launch.contextHandleSet p key raw room).1
  | .contextHandleRemove key => Launch.contextHandleRemove p key
  | .contextValueSet key value room => (Launch.contextValueSet p key value room).1
  | .contextValueRemove key => Launch.contextValueRemove p key
  | .reserve owner entry room => { p with objectHandles := (p.objectHandles.reserve owner entry room).1 }
  | .publish tickets => { p with objectHandles := (Ipc.publication tickets p.objectHandles).1 }
  | .cancel ticket => { p with objectHandles := (p.objectHandles.cancelReserved ticket).1 }

/-- A call, or a step of a longer one. -/
inductive Label (ω : Type) where
  | call (t : Nat) (call : Call ω)
  | streamPair (t : Nat) (read write : ω) (roomRead roomWrite : Bool)
  /-- The copy of `stream_pair_create`, with its cleanup if it fails. -/
  | copied (t : Nat) (ok : Bool)
  /-- `quiesce_image_siblings` has returned. -/
  | stop (t : Nat)
  | prepare (t : Nat) (updates : List ContextUpdate) (copied room : Bool)
  | commit (t : Nat)
  /-- The replacement fails, and its siblings go on. -/
  | abort (t : Nat)
  | spawn (t : Nat)
  /-- Anywhere in a call. -/
  | terminate (t : Nat)
  /-- The termination of a thread withdraws its reservations. -/
  | takeReservation (owner : Nat)

/-- Whether nobody has stopped the thread. -/
def State.runs (s : State ω) (t : Nat) : Bool := s.owner.all (· = t)

/-- Calls are atomic but for a stream pair and the replacement of the image. -/
def step (s : State ω) : Label ω → Option (State ω)
  | .call t call =>
    match s.prog t with
    | .user => if s.runs t then some { s with process := call.run s.process } else none
    | _ => none
  | .streamPair t read write roomRead roomWrite =>
    match s.prog t with
    | .user =>
      if s.runs t then
        match streamPair s.process read write roomRead roomWrite with
        | (p, none) => some { s with process := p }
        | (p, some (read, write)) => some ({ s with process := p }.setProg t (.streamPair read write))
      else none
    | _ => none
  | .copied t ok =>
    match s.prog t with
    | .streamPair read write =>
      if s.runs t then
        some ({ s with
          process := if ok then s.process else streamPairCleanup s.process read write }.setProg t .user)
      else none
    | _ => none
  | .stop t =>
    match s.prog t, s.owner with
    | .user, none => some ({ s with owner := some t }.setProg t .replacing)
    | _, _ => none
  | .prepare t updates copied room =>
    match s.prog t with
    | .replacing =>
      match nextContext s.process updates copied room with
      | .ok next => some (s.setProg t (.prepared next))
      | .error _ => some ({ s with owner := none }.setProg t .user)
    | _ => none
  | .commit t =>
    match s.prog t with
    | .prepared next =>
      some
        { process := commitImage s.process next
          prog := fun thread => if thread = t then .user else .absent
          owner := none }
    | _ => none
  | .abort t =>
    match s.prog t with
    | .replacing => some ({ s with owner := none }.setProg t .user)
    | .prepared _ => some ({ s with owner := none }.setProg t .user)
    | _ => none
  | .spawn t =>
    match s.prog t, s.owner with
    | .absent, none => some (s.setProg t .user)
    | _, _ => none
  | .terminate t => some (s.setProg t .absent)
  | .takeReservation owner =>
    some { s with
      process := { s.process with objectHandles := (s.process.objectHandles.takeReservationFor owner).1 } }

/-- A new process, with what it inherits. -/
structure Start (s : State ω) : Prop where
  process : ∃ grants values room, (installInheritedHandles ⟨.new, .new⟩ grants room >>= fun p =>
    installInheritedValues p values room) = .ok s.process
  prog : ∀ t, s.prog t = .user ∨ s.prog t = .absent
  owner : s.owner = none

/-- A process as a system. -/
def launch (ω : Type) : System (State ω) (Label ω) where
  init := Start
  step := step

variable {next : Option LaunchContext} {q : Prog} {published : List HandleReservation}

/-! ## What stays in a table -/

/-- Live entries stay as they are. -/
def Keeps (t t' : ObjectHandleTable ω) : Prop := ∀ handle, (t.get handle).isSome = true →
    t'.get handle = t.get handle

section Tables

variable {t t' t'' : ObjectHandleTable ω} {entry : ObjectHandleEntry ω} {handle k : Nat} {room : Bool}

theorem Keeps.refl : Keeps t t := fun _ _ => rfl

theorem Keeps.trans (h : Keeps t t') (h' : Keeps t' t'') : Keeps t t'' := by
  intro handle hlive
  have hsame := h handle hlive
  rw [h' handle (by rw [hsame]; exact hlive), hsame]

theorem find?_insertSorted (hne : k ≠ handle) (entries : List (Nat × ObjectHandleEntry ω)) :
    (ObjectHandleTable.insertSorted handle entry entries).find? (fun e => e.1 = k) =
      entries.find? fun e => e.1 = k := by
  induction entries with
  | nil => simp [ObjectHandleTable.insertSorted, Ne.symm hne]
  | cons first rest ih =>
    unfold ObjectHandleTable.insertSorted
    split
    · rw [List.find?_cons, List.find?_cons, ih]
    · rw [List.find?_cons]
      simp [Ne.symm hne]

theorem ne_of_live (hnone : t.get handle = none) (hlive : (t.get k).isSome = true) : k ≠ handle := by
  rintro rfl
  rw [hnone] at hlive
  cases hlive

/-- A new entry under a selector that is not in use. -/
theorem keeps_insertSorted (hnone : t.get handle = none) (entry : ObjectHandleEntry ω)
    (next nextReservation : Nat) (pending : List (HandleReservation × ObjectHandleEntry ω)) :
    Keeps t ⟨ObjectHandleTable.insertSorted handle entry t.entries, next, pending, nextReservation⟩ := by
  intro k hlive
  unfold ObjectHandleTable.get
  rw [find?_insertSorted (ne_of_live hnone hlive)]

theorem isSome_insertSorted
    (h : t'.entries = ObjectHandleTable.insertSorted handle entry t.entries) :
    (t'.get handle).isSome = true := by
  rw [Option.isSome_iff_ne_none, Ne, ObjectHandleTable.get_eq_none, not_not, h]
  exact ((ObjectHandleTable.insertSorted_perm handle entry t.entries).map Prod.fst).mem_iff.mpr
    List.mem_cons_self

/-- What has the same entries keeps them. -/
theorem keeps_of_entries (h : t'.entries = t.entries) : Keeps t t' := by
  intro k _
  unfold ObjectHandleTable.get
  rw [h]

theorem get_eq_none_of_selectors (h : handle ∉ t.selectors) : t.get handle = none :=
  ObjectHandleTable.get_eq_none.mpr fun hm => h (List.mem_append_left _ hm)

/-- **An insertion** goes to a selector that was not in use. -/
theorem insert_spec {found : Option Nat}
    (h : t.insert entry room = (t', found)) : Keeps t t' ∧ ∀ handle, found = some handle →
      t.get handle = none ∧ (t'.get handle).isSome = true := by
  unfold ObjectHandleTable.insert at h
  split at h
  · cases h
    exact ⟨.refl, nofun⟩
  · rcases ObjectHandleTable.freeSelector_cases t with ⟨next, heq⟩ | ⟨next, raw, heq, hfree, _, _⟩
    · rw [heq] at h
      cases h
      exact ⟨keeps_of_entries rfl, nofun⟩
    · rw [heq] at h
      cases h
      have hnone := get_eq_none_of_selectors hfree
      refine ⟨keeps_insertSorted hnone entry _ _ _, ?_⟩
      rintro _ ⟨⟩
      exact ⟨hnone, isSome_insertSorted rfl⟩

theorem insertAt_spec
    (h : t.insertAt handle entry room = (t', true)) : Keeps t t' ∧ (t'.get handle).isSome = true := by
  unfold ObjectHandleTable.insertAt at h
  split at h
  · cases h
  · split at h
    · cases h
    · rename_i hnone
      split at h
      · cases h
      · cases h
        exact ⟨keeps_insertSorted (by simpa using hnone) entry _ _ _, isSome_insertSorted rfl⟩

theorem keeps_takePending (select : HandleReservation → Bool) : Keeps t (t.takePending select).1 := by
  rcases ObjectHandleTable.takePending_cases t select with ⟨heq, _⟩ | ⟨r, pending, heq, _, _⟩ <;> rw [heq] <;>
    exact keeps_of_entries rfl

theorem keeps_reserve (owner : Nat) (entry : ObjectHandleEntry ω) (room : Bool) :
    Keeps t (t.reserve owner entry room).1 := by
  rcases ObjectHandleTable.reserve_cases t owner entry room with ⟨next, heq⟩
    | ⟨next, handle, heq, _⟩ <;> rw [heq] <;> exact keeps_of_entries rfl

/-- A removal touches no other selector. -/
theorem get_takeEntry (hne : k ≠ handle) : (t.takeEntry handle).1.get k = t.get k := by
  unfold ObjectHandleTable.takeEntry
  split
  · rfl
  show ((t.entries.eraseP fun entry => entry.1 = handle).find? fun entry => entry.1 = k).map Prod.snd = _
  unfold ObjectHandleTable.get
  congr 1
  induction t.entries with
  | nil => rfl
  | cons first rest ih =>
    by_cases hfirst : first.1 = handle
    · rw [List.eraseP_cons_of_pos (by simpa using hfirst), List.find?_cons_of_neg]
      simpa [hfirst] using Ne.symm hne
    · rw [List.eraseP_cons_of_neg (by simpa using hfirst), List.find?_cons, List.find?_cons, ih]

/-- The removal of what was not there at first. -/
theorem Keeps.takeEntry (h : Keeps t t') (hnone : t.get handle = none) : Keeps t (t'.takeEntry handle).1 := by
  intro k hlive
  rw [get_takeEntry (ne_of_live hnone hlive)]
  exact h k hlive

theorem get_retain {keep : Nat → Bool} (hkeep : keep k = true) : (t.retain keep).1.get k = t.get k := by
  show ((t.entries.filter fun entry => keep entry.1).find? fun entry => entry.1 = k).map Prod.snd = _
  unfold ObjectHandleTable.get
  rw [List.find?_filter]
  congr 2
  funext entry
  by_cases hk : entry.1 = k
  · simp [hk, hkeep]
  · simp [hk]

theorem keeps_takeBack : ∀ {t' : ObjectHandleTable ω}, Keeps t t' →
    (∀ ticket ∈ published, t.get ticket.handle = none) →
      Keeps t (published.foldl (fun table ticket => (table.takeEntry ticket.handle).1) t') := by
  induction published with
  | nil => exact fun h _ => h
  | cons first published ih =>
    intro t' hkeeps hnew
    exact ih (hkeeps.takeEntry (hnew first List.mem_cons_self)) fun x hx => hnew x (List.mem_cons_of_mem _ hx)

/-- The loop of a publication: what it has published so far was not there at first, so that it may take it
    back. -/
theorem keeps_publishAll {tickets : List HandleReservation} : ∀ {t' : ObjectHandleTable ω}, Keeps t t' →
    (∀ ticket ∈ published, t.get ticket.handle = none) → Keeps t (Ipc.publishAll tickets published t').1 := by
  induction tickets generalizing published with
  | nil => exact fun h _ => h
  | cons ticket rest ih =>
    intro t' hkeeps hnew
    unfold Ipc.publishAll
    rcases ObjectHandleTable.publishReserved_cases t' ticket with ⟨heq, _⟩ | ⟨entry, pending, _, hnone, heq⟩
    · rw [heq]
      exact keeps_takeBack hkeeps hnew
    · rw [heq]
      refine ih (hkeeps.trans (keeps_insertSorted hnone entry _ _ _)) fun x hx => ?_
      rcases List.mem_append.mp hx with hx | hx
      · exact hnew x hx
      · rw [List.mem_singleton.mp hx]
        cases hlive : t.get ticket.handle with
        | none => rfl
        | some old =>
          have hsame := hkeeps ticket.handle (by rw [hlive]; rfl)
          rw [hnone, hlive] at hsame
          cases hsame

theorem keeps_publication (tickets : List HandleReservation) : Keeps t (Ipc.publication tickets t).1 := by
  unfold Ipc.publication
  split
  · exact keeps_publishAll .refl nofun
  · exact .refl

end Tables

/-! ## What a section does -/

/-- Every selector that the context names is live. -/
def Live (table : ObjectHandleTable ω) (context : LaunchContext) : Prop :=
  ∀ key handle, context.Names key handle → (table.get handle).isSome = true

/-- What stays named stays the same entry. -/
def Steady (p p' : Process ω) : Prop :=
  ∀ key handle, p.launchContext.Names key handle → p'.launchContext.Names key handle →
    p'.objectHandles.get handle = p.objectHandles.get handle

/-- A section that keeps the names alive. -/
def Sustains (p p' : Process ω) : Prop := Live p'.objectHandles p'.launchContext ∧ Steady p p'

/-- A section that keeps the live entries and the context. -/
def Extends (p p' : Process ω) : Prop :=
  Keeps p.objectHandles p'.objectHandles ∧ p'.launchContext = p.launchContext

section Sections

variable {p p' : Process ω} {c : LaunchContext} {room : Bool}

theorem Live.keeps {t t' : ObjectHandleTable ω} (h : Live t c) (hk : Keeps t t') : Live t' c := by
  intro key handle hname
  rw [hk handle (h key handle hname)]
  exact h key handle hname

theorem keeps_create (entry : ObjectHandleEntry ω) (room : Bool) : Extends p (create p entry room).1 := by
  unfold create
  split
  · exact ⟨(insert_spec ‹_›).1, rfl⟩
  · exact ⟨(insert_spec ‹_›).1, rfl⟩

theorem keeps_submit (entry : ObjectHandleEntry ω) (room admitted : Bool) :
    Extends p (submit p entry room admitted).1 := by
  unfold submit
  split
  · exact ⟨(insert_spec ‹_›).1, rfl⟩
  · obtain ⟨hinsert, hnew⟩ := insert_spec ‹_›
    split
    · exact ⟨hinsert, rfl⟩
    · exact ⟨hinsert.takeEntry (hnew _ rfl).1, rfl⟩

theorem keeps_streamPair (read write : ω) (roomRead roomWrite : Bool) :
    Extends p (streamPair p read write roomRead roomWrite).1 := by
  unfold streamPair
  split
  · exact ⟨(insert_spec ‹_›).1, rfl⟩
  · obtain ⟨hread, hnew⟩ := insert_spec ‹_›
    split
    · exact ⟨(hread.trans (insert_spec ‹_›).1).takeEntry (hnew _ rfl).1, rfl⟩
    · exact ⟨hread.trans (insert_spec ‹_›).1, rfl⟩

theorem keeps_duplicate (raw : Nat) (rights : HandleRights) (room : Bool) :
    Extends p (duplicate p raw rights room).1 := by
  unfold duplicate
  split
  · exact ⟨.refl, rfl⟩
  · split
    · exact ⟨.refl, rfl⟩
    · split
      · exact ⟨.refl, rfl⟩
      · split
        · exact ⟨.refl, rfl⟩
        · exact keeps_create _ _

/-- Wherever a grant goes, it is there, and nothing else has changed. -/
theorem placeGrant_spec {t t' : ObjectHandleTable ω} {grant : InheritedHandleGrant ω} {handle : Nat}
    (h : placeGrant t grant room = .ok (t', handle)) : Keeps t t' ∧ (t'.get handle).isSome = true := by
  unfold placeGrant at h
  split at h
  · split at h
    · obtain ⟨hk, hnew⟩ := insert_spec ‹_›
      cases h
      exact ⟨hk, (hnew _ rfl).2⟩
    · cases h
  · split at h
    · cases h
    · split at h
      · cases h
      · split at h
        · have hspec := insertAt_spec ‹_›
          cases h
          exact hspec
        · cases h

/-- A section that leaves the entries alone that are named afterwards. -/
theorem Live.same (h : Live p.objectHandles c) (hsame : ∀ key handle,
      p'.launchContext.Names key handle → c.Names key handle ∧ p'.objectHandles.get handle =
        p.objectHandles.get handle) : Sustains p p' := by
  refine ⟨fun key handle hname => ?_, fun key handle _ hname => (hsame key handle hname).2⟩
  obtain ⟨hold, hget⟩ := hsame key handle hname
  rw [hget]
  exact h key handle hold

section Kept

variable (h : Live p.objectHandles p.launchContext)
include h

/-- A section that keeps the live entries, and names only what is live. -/
theorem Live.step (hk : Keeps p.objectHandles p'.objectHandles)
    (hnames : ∀ key handle, p'.launchContext.Names key handle →
      p.launchContext.Names key handle ∨ (p.objectHandles.get handle).isSome = true) : Sustains p p' := by
  refine ⟨fun key handle hname => ?_, fun key handle hname _ => hk handle (h key handle hname)⟩
  rcases hnames key handle hname with hold | hlive
  · exact h.keeps hk key handle hold
  · rw [hk handle hlive]
    exact hlive

theorem Live.extends (hk : Extends p p') : Sustains p p' :=
  h.step hk.1 fun _ _ hname => .inl (hk.2 ▸ hname)

/-- `close` forgets in the context what it removes from the table. -/
theorem live_close (raw : Nat) : Sustains p (close p raw).1 := by
  unfold close
  split
  · exact ⟨h, fun _ _ _ _ => rfl⟩
  · rename_i handle _
    cases htake : p.objectHandles.takeEntry handle with
    | mk table found =>
      cases found with
      | none => exact ⟨h, fun _ _ _ _ => rfl⟩
      | some entry =>
        -- a name that is left is not that of the handle, so its entry is untouched
        refine h.same fun key k hname => ?_
        obtain ⟨hold, hne⟩ := LaunchContext.names_removeHandle.mp hname
        have hget := get_takeEntry (t := p.objectHandles) hne
        rw [htake] at hget
        exact ⟨hold, hget⟩

theorem live_contextHandleSet (key raw : Nat) (room : Bool) :
    Sustains p (contextHandleSet p key raw room).1 := by
  unfold contextHandleSet
  split
  · exact ⟨h, fun _ _ _ _ => rfl⟩
  · split
    · exact ⟨h, fun _ _ _ _ => rfl⟩
    · rename_i handle _ hsome
      split
      · exact ⟨h, fun _ _ _ _ => rfl⟩
      · rename_i context hset
        refine h.step .refl fun k v hname => ?_
        rcases (LaunchContext.names_set hset).mp hname with ⟨rfl, rfl⟩ | ⟨hold, _⟩
        · exact .inr (by simpa [Option.isSome_iff_ne_none] using hsome)
        · exact .inl hold

/-- **Every call keeps the names alive.** -/
theorem live_call (call : Call ω) : Sustains p (call.run p) := by
  cases call with
  | create entry room => exact h.extends (keeps_create entry room)
  | submit entry room admitted => exact h.extends (keeps_submit entry room admitted)
  | close raw => exact live_close h raw
  | duplicate raw rights room => exact h.extends (keeps_duplicate raw rights room)
  | contextHandleSet key raw room => exact live_contextHandleSet h key raw room
  | contextHandleRemove key =>
    refine h.step .refl fun k v hname => .inl ?_
    exact (LaunchContext.names_take.mp hname).1
  | contextValueSet key value room =>
    simp only [Call.run, contextValueSet]
    split
    · exact h.step .refl fun k v hname => .inl hname
    · exact h.step .refl fun k v hname => .inl ((LaunchContext.names_setValue ‹_›).mp hname)
  | contextValueRemove key => exact h.step .refl fun k v hname => .inl hname
  | reserve owner entry room => exact h.extends ⟨keeps_reserve owner entry room, rfl⟩
  | publish tickets => exact h.extends ⟨keeps_publication tickets, rfl⟩
  | cancel ticket => exact h.extends ⟨keeps_takePending _, rfl⟩

/-- The cleanup is harmless if nobody has put one of the two ends into the context. -/
theorem live_cleanup {read write : Nat}
    (hread : p.launchContext.referencesHandle read = false)
    (hwrite : p.launchContext.referencesHandle write = false) :
    Sustains p (streamPairCleanup p read write) := by
  refine h.same fun key handle (hname : p.launchContext.Names key handle) => ⟨hname, ?_⟩
  have hne : ∀ closed, p.launchContext.referencesHandle closed = false → handle ≠ closed := by
    rintro closed hclosed rfl
    rw [LaunchContext.referencesHandle_iff.mpr ⟨key, hname⟩] at hclosed
    cases hclosed
  show ((p.objectHandles.takeEntry read).1.takeEntry write).1.get handle = _
  rw [get_takeEntry (hne write hwrite), get_takeEntry (hne read hread)]

theorem live_nextContext {updates : List ContextUpdate} {copied room : Bool}
    (hnext : nextContext p updates copied room = .ok next) :
    Live p.objectHandles (next.getD p.launchContext) := by
  unfold nextContext at hnext
  split at hnext
  · cases hnext
    exact h
  split at hnext
  · rename_i context hpatched
    cases hnext
    intro key handle hname
    rcases LaunchContext.names_patched hpatched hname with hold | hvalid
    · exact h key handle hold
    · exact hvalid
  · cases hnext

theorem live_installInheritedHandle {room : Bool} {grant : InheritedHandleGrant ω}
    (hi : installInheritedHandle room p grant = .ok p') : Live p'.objectHandles p'.launchContext := by
  unfold installInheritedHandle at hi
  split at hi
  · cases hi
  obtain ⟨⟨table, handle⟩, hplace, hi⟩ := bind_eq_ok.mp hi
  obtain ⟨hk, hlive⟩ := placeGrant_spec hplace
  dsimp only at hi
  split at hi
  · rename_i context hinstall
    cases hi
    intro key k hname
    rcases (LaunchContext.names_install hinstall).mp hname with ⟨_, rfl⟩ | ⟨hold, _⟩
    · exact hlive
    · exact h.keeps hk key k hold
  · cases hi

end Kept

/-- The selection for the next image keeps what the context names. -/
theorem live_commitImage (h : Live p.objectHandles (next.getD p.launchContext)) :
    Sustains p (commitImage p next) :=
  h.same fun key _ hname => ⟨hname, get_retain (LaunchContext.referencesHandle_iff.mpr ⟨key, hname⟩)⟩

theorem live_installInheritedHandles {grants : List (InheritedHandleGrant ω)}
    (hi : installInheritedHandles ⟨.new, .new⟩ grants room = .ok p) :
    Live p.objectHandles p.launchContext := by
  refine foldlM_induct (P := fun _ p => Live p.objectHandles p.launchContext) ?_ ?_ hi
  · exact fun key handle hname => absurd hname LaunchContext.names_new
  · intro done grant rest p p' _ hgrant h
    exact live_installInheritedHandle h hgrant

theorem live_installInheritedValues {values : List (Nat × Nat)} (h : Live p.objectHandles p.launchContext)
    (hi : installInheritedValues p values room = .ok p') : Live p'.objectHandles p'.launchContext := by
  refine foldlM_induct (P := fun _ p => Live p.objectHandles p.launchContext) h ?_ hi
  intro done value rest p p' _ hvalue h
  unfold installInheritedValue at hvalue
  split at hvalue <;> cases hvalue
  rename_i context hinstall
  exact fun key handle hname => h key handle ((LaunchContext.names_installValue hinstall).mp hname)

end Sections

/-! ## Along runs -/

/-- A failed `stream_pair_create` finds neither of its two handles in the launch context. -/
def undisturbed (s : State ω) : Label ω → Bool
  | .copied t false =>
    match s.prog t with
    | .streamPair read write =>
      !s.process.launchContext.referencesHandle read && !s.process.launchContext.referencesHandle write
    | _ => true
  | _ => true

/-- The context names live entries, and so does the one that a replacement has prepared; nobody else runs
    then. -/
structure Inv (s : State ω) : Prop where
  live : Live s.process.objectHandles s.process.launchContext
  alone : ∀ t, (s.prog t).replaces = true → s.owner = some t
  prepared : ∀ t next, s.prog t = .prepared next →
    Live s.process.objectHandles (next.getD s.process.launchContext)

section Runs

variable {s s' : State ω} {t : Nat} {prog : Nat → Prog} {owner : Option Nat}

theorem inv_start (h : Start s) : Inv s := by
  obtain ⟨grants, values, room, hi⟩ := h.process
  obtain ⟨p, hhandles, hvalues⟩ := bind_eq_ok.mp hi
  have hlive := live_installInheritedValues (live_installInheritedHandles hhandles) hvalues
  refine ⟨hlive, fun t hp => ?_, fun t next hp => ?_⟩
  · rcases h.prog t with h0 | h0 <;> rw [h0] at hp <;> cases hp
  · rcases h.prog t with h0 | h0 <;> rw [h0] at hp <;> cases hp

/-- Only the owner is in a replacement. -/
theorem Inv.not_replaces (h : Inv s) (howner : s.owner ≠ some t) : (s.prog t).replaces = false := by
  by_contra hp
  exact howner (h.alone t (Bool.not_eq_false _ ▸ hp))

/-- A thread that runs outside of a replacement runs while there is none. -/
theorem Inv.idle (h : Inv s) (hruns : s.runs t = true) (hprog : (s.prog t).replaces = false) :
    ∀ t', (s.prog t').replaces = false := by
  intro t'
  by_cases heq : t' = t
  · exact heq ▸ hprog
  · refine h.not_replaces fun howner => heq ?_
    simpa [State.runs, howner] using hruns

/-- While there is no replacement the process may do anything that keeps the names alive. -/
theorem inv_of_idle {process : Process ω}
    (hlive : Live process.objectHandles process.launchContext) (hidle : ∀ t, (prog t).replaces = false) :
    Inv (⟨process, prog, owner⟩ : State ω) := by
  refine ⟨hlive, fun t hp => ?_, fun t next hp => ?_⟩
  · rw [hidle t] at hp
    cases hp
  · have hnot := hidle t
    rw [show prog t = .prepared next from hp] at hnot
    cases hnot

theorem Inv.idle_of_free (h : Inv s) (howner : s.owner = none) (t' : Nat) : (s.prog t').replaces = false :=
  h.not_replaces (by rw [howner]; nofun)

/-- A thread goes to another place, which has to fit what is left of a replacement. -/
theorem Inv.goTo (h : Inv s)
    (hothers : ∀ t', (s.prog t').replaces = true → owner = some t')
    (hself : q.replaces = true → owner = some t)
    (hprepared : ∀ next, q = .prepared next →
      Live s.process.objectHandles (next.getD s.process.launchContext)) :
    Inv (⟨s.process, update s.prog t q, owner⟩ : State ω) := by
  refine ⟨h.live, fun t' hp => ?_, fun t' next hp => ?_⟩
  · dsimp only at hp
    rw [update_apply] at hp
    split at hp
    · rename_i heq
      exact heq ▸ hself hp
    · exact hothers t' hp
  · dsimp only at hp
    rw [update_apply] at hp
    split at hp
    · exact hprepared next hp
    · exact h.prepared t' next hp

/-- A thread leaves user mode, or comes back. -/
theorem idle_update (hidle : ∀ t', t' ≠ t → (prog t').replaces = false)
    (hq : q.replaces = false) : ∀ t', (update prog t q t').replaces = false := by
  intro t'
  rw [update_apply]
  split
  · exact hq
  · exact hidle t' ‹_›

/-- The end of a replacement. -/
theorem Inv.others (h : Inv s) (hprog : (s.prog t).replaces = true) :
    ∀ t', t' ≠ t → (s.prog t').replaces = false := by
  intro t' hne
  refine h.not_replaces ?_
  rw [h.alone t hprog]
  exact fun howner => hne (Option.some.inj howner).symm

/-- **A step keeps the names alive**, and what stays named stays the same. -/
theorem inv_step (h : Inv s) {l : Label ω} (hclear : undisturbed s l = true) (hs : step s l = some s') :
    Inv s' ∧ Steady s.process s'.process := by
  have hsteady : Steady s.process s.process := fun _ _ _ _ => rfl
  cases l with simp only [step] at hs
  | call t call =>
    split at hs
    · split at hs <;> cases hs
      rename_i hprog hruns
      obtain ⟨hlive, hcall⟩ := live_call h.live call
      exact ⟨inv_of_idle hlive (h.idle hruns (by rw [hprog]; rfl)), hcall⟩
    · cases hs
  | streamPair t read write roomRead roomWrite =>
    split at hs
    · rename_i hprog
      split at hs
      · rename_i hruns
        have hidle := h.idle hruns (by rw [hprog]; rfl)
        have hpair := h.live.extends (keeps_streamPair read write roomRead roomWrite)
        split at hs <;> cases hs
        · rename_i heq
          rw [heq] at hpair
          exact ⟨inv_of_idle hpair.1 hidle, hpair.2⟩
        · rename_i heq
          rw [heq] at hpair
          exact ⟨inv_of_idle hpair.1 (idle_update (fun t' _ => hidle t') rfl), hpair.2⟩
      · cases hs
    · cases hs
  | copied t ok =>
    split at hs
    · split at hs <;> cases hs
      rename_i read write hprog hruns
      have hidle := h.idle hruns (by rw [hprog]; rfl)
      cases ok with
      | true => exact ⟨inv_of_idle h.live (idle_update (fun t' _ => hidle t') rfl), hsteady⟩
      | false =>
        simp only [undisturbed, hprog, Bool.and_eq_true, Bool.not_eq_true'] at hclear
        obtain ⟨hlive, hclean⟩ := live_cleanup h.live hclear.1 hclear.2
        exact ⟨inv_of_idle hlive (idle_update (fun t' _ => hidle t') rfl), hclean⟩
    · cases hs
  | stop t =>
    split at hs <;> cases hs
    rename_i hprog howner
    refine ⟨h.goTo (fun t' hp => ?_) (fun _ => rfl) nofun, hsteady⟩
    rw [h.idle_of_free howner t'] at hp
    cases hp
  | prepare t updates copied room =>
    split at hs
    · rename_i hprog
      have hreplaces : (s.prog t).replaces = true := by rw [hprog]; rfl
      split at hs <;> cases hs
      · rename_i next hnext
        refine ⟨h.goTo h.alone (fun _ => h.alone t hreplaces) ?_, hsteady⟩
        rintro _ ⟨⟩
        exact live_nextContext h.live hnext
      · exact ⟨inv_of_idle h.live (idle_update (h.others hreplaces) rfl), hsteady⟩
    · cases hs
  | commit t =>
    split at hs
    · rename_i next hprog
      cases hs
      obtain ⟨hlive, hcommit⟩ := live_commitImage (h.prepared t next hprog)
      refine ⟨inv_of_idle hlive fun t' => ?_, hcommit⟩
      split <;> rfl
    · cases hs
  | abort t =>
    split at hs
    · rename_i hprog
      cases hs
      exact ⟨inv_of_idle h.live (idle_update (h.others (by rw [hprog]; rfl)) rfl), hsteady⟩
    · rename_i hprog
      cases hs
      exact ⟨inv_of_idle h.live (idle_update (h.others (by rw [hprog]; rfl)) rfl), hsteady⟩
    · cases hs
  | spawn t =>
    split at hs <;> cases hs
    rename_i howner
    exact ⟨inv_of_idle h.live (idle_update (fun t' _ => h.idle_of_free howner t') rfl), hsteady⟩
  | terminate t =>
    cases hs
    exact ⟨h.goTo h.alone nofun nofun, hsteady⟩
  | takeReservation owner =>
    cases hs
    -- nothing that is live is touched, so what is prepared stays alive as well
    have hk : Keeps s.process.objectHandles (s.process.objectHandles.takeReservationFor owner).1 :=
      keeps_takePending _
    refine ⟨⟨h.live.keeps hk, h.alone, fun t next hp => ?_⟩, fun key handle hname _ =>
      hk handle (h.live key handle hname)⟩
    exact (h.prepared t next hp).keeps hk

theorem inv_reach (h : (launch ω).Reach (fun s l => undisturbed s l = true) s) : Inv s := by
  refine System.Reach.invariant ?_ ?_ h
  · intro s hs
    exact inv_start hs
  · intro s l s' hi hclear hs
    exact (inv_step hi hclear hs).1

/-- **The launch context names live entries**, and a name keeps its entry for as long as it stands. -/
theorem launch_names_live (h : (launch ω).Reach (fun s l => undisturbed s l = true) s) :
    (∀ key handle, s.process.launchContext.get key = some handle →
      (s.process.objectHandles.get handle).isSome = true) ∧
    ∀ l s', undisturbed s l = true → (launch ω).step s l = some s' → Steady s.process s'.process := by
  have hI := inv_reach h
  refine ⟨fun key handle hget => ?_, fun l s' hclear hs => (inv_step hI hclear hs).2⟩
  exact hI.live key handle (LaunchContext.get_eq_some.mp hget)

end Runs

/-! ## Two threads of one process -/

/-- A process that inherits nothing. -/
def newProcess : State Nat := ⟨⟨.new, .new⟩, fun t => if t = 1 ∨ t = 2 then .user else .absent, none⟩

theorem start_newProcess : Start newProcess := by
  refine ⟨⟨[], [], true, rfl⟩, fun t => ?_, rfl⟩
  show (if t = 1 ∨ t = 2 then Prog.user else .absent) = .user ∨ _
  split
  · exact .inl rfl
  · exact .inr (if_neg ‹_›)

/-- Thread 1 makes a pair and closes one end; thread 2 names the other, and again in the image that it goes on
    with. -/
def namesOneEnd : List (Label Nat) :=
  [.streamPair 1 10 11 true true, .copied 1 true, .call 2 (.contextHandleSet 7 1 true),
    .call 1 (.close 2), .stop 2, .prepare 2 [.setHandle 8 1] true true, .commit 2]

theorem launch_names_live_after_replacement :
    ∃ s : State Nat, (launch Nat).Reach (fun s l => undisturbed s l = true) s ∧
    s.process.launchContext.get 7 = some 1 ∧ s.process.launchContext.get 8 = some 1 ∧
    (s.process.objectHandles.get 1).isSome = true := by
  obtain ⟨s, hs, hp⟩ := System.reach_of_exec (launch Nat) undisturbed newProcess namesOneEnd
    (fun s => s.process.launchContext.get 7 = some 1 ∧ s.process.launchContext.get 8 = some 1)
    start_newProcess (by decide +kernel)
  exact ⟨s, hs, hp.1, hp.2, (launch_names_live hs).1 7 1 hp.1⟩

/-- Thread 2 guesses the first selector of the pair before thread 1 has copied it, and the copy fails. -/
def namesEarly : List (Label Nat) :=
  [.streamPair 1 10 11 true true, .call 2 (.contextHandleSet 7 1 true), .copied 1 false]

theorem cleanup_leaves_name : ∃ s : State Nat, (launch Nat).Reachable s ∧
    s.process.launchContext.get 7 = some 1 ∧ (s.process.objectHandles.get 1).isNone = true := by
  exact System.reachable_of_exec (launch Nat) newProcess namesEarly _ start_newProcess (by decide +kernel)

end Mnu.Syscall.Launch
