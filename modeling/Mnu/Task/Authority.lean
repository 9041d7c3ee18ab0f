import Mnu.Lib.Run
import Mnu.Lib.Update
import Mnu.Task.HandleTableInv

/-!
# `Mnu.Task.Authority` — rights only shrink on their way from handle to handle

Handle tables of any number of processes, and the four ways in which a handle gives rise to another reference:
`duplicate` (`src/syscall/handle.rs`), attachment to a message (`src/syscall/ipc.rs`), the grants of a process
launch (`src/syscall/exec.rs`), and the capture of a table into a snapshot from which a later launch exports
(`src/task/handle_snapshot.rs`, `src/syscall/exec/captured_handles.rs`). References wait in messages, in
grants and in reservations before a table publishes them.

A `Reference` is an object together with its `origin`, the creation it goes back to. The table operations are
the same for every type of objects, so none of them can look at the origin: it comes along with the object.
`created` records each creation with its process, and `log` each derivation with its process and the entry it
started from.
-/

namespace Mnu.Task

open Mnu.Lib Function

/-! ## Snapshots -/

/-- What a handle refers to, as far as the derivations look at it. -/
inductive KernelObject where
  | other (id : Nat)
  | handleSnapshot (id : Nat)
  deriving DecidableEq

/-- An object, and the creation it comes from. -/
structure Reference where
  object : KernelObject
  origin : Nat
  deriving DecidableEq

/-- Why a handle is not exported. -/
inductive ExportError where
  | missing
  | denied

namespace HandleSnapshot

variable {ω : Type}

/-- `HandleSnapshot::export_restricted`. -/
def exportRestricted (snapshot : List (CapturedHandle ω)) (source : Nat) (requested : HandleRights) :
    Except ExportError (ObjectHandleEntry ω) :=
  match snapshot.find? fun captured => captured.handle = source with
  | none => .error .missing
  | some captured =>
    match captured.exportable.bind fun entry => entry.restricted requested with
    | none => .error .denied
    | some entry => .ok entry

end HandleSnapshot

/-! ## The processes -/

namespace Authority

/-- A handle, wherever it is. -/
abbrev Entry := ObjectHandleEntry Reference

/-- The ways to derive a reference. -/
inductive Kind where
  | duplicate
  | attach
  | launch
  | capture

/-- The right a derivation needs. Only a duplicate stays in its process. -/
def Kind.needs : Kind → HandleRights
  | .duplicate => .duplicate
  | .attach | .launch | .capture => .transfer

/-- A handle made from another. -/
structure Derivation where
  kind : Kind
  /-- The process that asks for it. -/
  process : Nat
  source : Entry
  target : Entry

/-- The reference that a capture takes from a handle. -/
def derivation (pid : Nat) (captured : CapturedHandle Reference) : Option Derivation :=
  captured.exportable.map fun entry => ⟨.capture, pid, entry, entry⟩

/-- All places where handles are, and how they came there. -/
structure State where
  tables : Nat → Option (ObjectHandleTable Reference)
  nextProcess : Nat
  snapshots : Nat → Option (List (CapturedHandle Reference))
  nextSnapshot : Nat
  /-- The attachments of the messages under way. -/
  mail : List Entry
  /-- The grants of the launches under way. -/
  grants : List Entry
  /-- The process in which a reference was created, and its rights, by origin. -/
  created : List (Nat × HandleRights)
  log : List Derivation

/-- A call on handles, or a process that comes or goes. -/
inductive Label where
  | spawn
  | reap (pid : Nat)
  /-- A new object, or a new handle to one that is not derived from another handle. -/
  | create (pid id : Nat) (rights : HandleRights) (room : Bool)
  | duplicate (pid source : Nat) (requested : HandleRights) (room : Bool)
  | attach (pid source : Nat) (requested : HandleRights)
  /-- A receiver reserves a selector for an attachment. -/
  | receive (pid owner index : Nat) (room : Bool)
  | dropMail (index : Nat)
  | capture (pid : Nat) (room : Bool)
  | grant (pid source : Nat) (requested : HandleRights)
  | grantCaptured (pid snapshot source : Nat) (requested : HandleRights)
  /-- `install_inherited_handles`: any selector, or the given one. -/
  | install (pid index : Nat) (target : Option { n : Nat // n ≠ 0 }) (room : Bool)
  | dropGrant (index : Nat)
  | publishReserved (pid : Nat) (ticket : HandleReservation)
  | cancelReserved (pid : Nat) (ticket : HandleReservation)
  | takeReservationFor (pid owner : Nat)
  | close (pid handle : Nat)
  | retain (pid : Nat) (keep : Nat → Bool)

namespace State

/-- A table written back. -/
def setTable (s : State) (pid : Nat) (t : ObjectHandleTable Reference) : State :=
  { s with tables := update s.tables pid (some t) }

/-- An operation on the table of a process. -/
def onTable (s : State) (pid : Nat) (op : ObjectHandleTable.Op Reference) : Option State :=
  (s.tables pid).map fun t => s.setTable pid (t.apply op)

/-- `table_capture` gives its snapshot these rights. -/
def snapshotRights : HandleRights := (HandleRights.read.union .control).union .duplicate

/-- What each call does to tables, mail and grants. -/
def step (s : State) : Label → Option State
  | .spawn => some { s.setTable s.nextProcess .new with nextProcess := s.nextProcess + 1 }
  | .reap pid => some { s with tables := update s.tables pid none }
  | .create pid id rights room =>
    { s with created := s.created ++ [(pid, rights)] }.onTable pid
      (.insert ⟨⟨.other id, s.created.length⟩, rights⟩ room)
  | .duplicate pid source requested room =>
    (s.tables pid).bind fun t =>
      match t.get source, t.duplicateEntry source requested with
      | some entry, some copy =>
        { s with log := ⟨.duplicate, pid, entry, copy⟩ :: s.log }.onTable pid (.insert copy room)
      | _, _ => none
  | .attach pid source requested =>
    (s.tables pid).bind fun t =>
      match t.get source, t.exportRestricted source requested with
      | some entry, some copy =>
        some { s with mail := s.mail ++ [copy], log := ⟨.attach, pid, entry, copy⟩ :: s.log }
      | _, _ => none
  | .receive pid owner index room =>
    (s.mail[index]?).bind fun entry =>
      { s with mail := s.mail.eraseIdx index }.onTable pid (.reserve owner entry room)
  | .dropMail index => some { s with mail := s.mail.eraseIdx index }
  | .capture pid room =>
    (s.tables pid).bind fun t =>
      let snapshot := HandleSnapshot.capture t
      { s with
        snapshots := update s.snapshots s.nextSnapshot (some snapshot)
        nextSnapshot := s.nextSnapshot + 1
        created := s.created ++ [(pid, snapshotRights)]
        log := (snapshot.filterMap (derivation pid)) ++ s.log }.onTable pid
        (.insert ⟨⟨.handleSnapshot s.nextSnapshot, s.created.length⟩, snapshotRights⟩ room)
  | .grant pid source requested =>
    (s.tables pid).bind fun t =>
      match t.get source, t.exportRestricted source requested with
      | some entry, some copy =>
        some { s with grants := s.grants ++ [copy], log := ⟨.launch, pid, entry, copy⟩ :: s.log }
      | _, _ => none
  | .grantCaptured pid snapshot source requested =>
    (s.tables pid).bind fun t =>
      match t.get snapshot with
      | some ⟨⟨.handleSnapshot id, _⟩, rights⟩ =>
        if rights.contains .control then
          (s.snapshots id).bind fun captured =>
            match HandleSnapshot.exportRestricted captured source requested,
              (captured.find? fun captured => captured.handle = source).bind CapturedHandle.exportable with
            | .ok copy, some entry =>
              some { s with grants := s.grants ++ [copy], log := ⟨.launch, pid, entry, copy⟩ :: s.log }
            | _, _ => none
        else none
      | _ => none
  | .install pid index target room =>
    (s.grants[index]?).bind fun entry =>
      s.onTable pid (target.elim (.insert entry room) fun handle => .insertAt handle entry room)
  | .dropGrant index => some { s with grants := s.grants.eraseIdx index }
  | .publishReserved pid ticket => s.onTable pid (.publishReserved ticket)
  | .cancelReserved pid ticket => s.onTable pid (.cancelReserved ticket)
  | .takeReservationFor pid owner => s.onTable pid (.takeReservationFor owner)
  | .close pid handle => s.onTable pid (.takeEntry handle)
  | .retain pid keep => s.onTable pid (.retain keep)

/-- No processes. -/
def initial : State := ⟨fun _ => none, 1, fun _ => none, 0, [], [], [], []⟩

end State

/-- The handles of all processes as a system. -/
def system : System State Label where
  init s := s = .initial
  step := State.step

end Authority

/-! ## Where references are -/

namespace ObjectHandleTable

variable {ω : Type} {handle : Nat}

/-- The references of a table, published or not. -/
def references (t : ObjectHandleTable ω) : List (ObjectHandleEntry ω) :=
  t.entries.map Prod.snd ++ t.pending.map Prod.snd

/-- The reference an operation brings in. -/
def Op.brings : Op ω → Option (ObjectHandleEntry ω)
  | .insert entry _ | .insertAt _ entry _ | .reserve _ entry _ => some entry
  | _ => none

variable {t : ObjectHandleTable ω} {x : ObjectHandleEntry ω}

theorem mem_references :
    x ∈ t.references ↔ (∃ handle, (handle, x) ∈ t.entries) ∨ ∃ ticket, (ticket, x) ∈ t.pending := by
  simp [references]

theorem mem_references_of_get (h : t.get handle = some x) : x ∈ t.references := by
  obtain ⟨⟨found, e⟩, hfind, he⟩ := Option.map_eq_some_iff.mp h
  cases he
  exact mem_references.mpr (.inl ⟨found, List.mem_of_find?_eq_some hfind⟩)

theorem mem_references_of_sub {t' : ObjectHandleTable ω} (hx : x ∈ t'.references)
    (he : ∀ e ∈ t'.entries, e ∈ t.entries) (hp : ∀ r ∈ t'.pending, r ∈ t.pending) : x ∈ t.references := by
  rcases mem_references.mp hx with ⟨handle, hin⟩ | ⟨ticket, hin⟩
  · exact mem_references.mpr (.inl ⟨handle, he _ hin⟩)
  · exact mem_references.mpr (.inr ⟨ticket, hp _ hin⟩)

/-- An entry put in at its place is the only new one. -/
theorem mem_references_inserted {entry : ObjectHandleEntry ω}
    {pending : List (HandleReservation × ObjectHandleEntry ω)} (hp : ∀ r ∈ pending, r ∈ t.pending)
    (hx : x ∈ ({ t with entries := insertSorted handle entry t.entries, pending := pending } :
      ObjectHandleTable ω).references) : x ∈ t.references ∨ x = entry := by
  rcases mem_references.mp hx with ⟨h, hin⟩ | ⟨ticket, hin⟩
  · rcases List.mem_cons.mp ((insertSorted_perm handle entry t.entries).mem_iff.mp hin) with heq | hin
    · exact .inr (congrArg Prod.snd heq)
    · exact .inl (mem_references.mpr (.inl ⟨h, hin⟩))
  · exact .inl (mem_references.mpr (.inr ⟨ticket, hp _ hin⟩))

/-- **A table gets its references from the operations only.** -/
theorem mem_references_apply {op : Op ω}
    (hx : x ∈ (t.apply op).references) : x ∈ t.references ∨ op.brings = some x := by
  have taken (select : HandleReservation → Bool) (hx : x ∈ (t.takePending select).1.references) :
      x ∈ t.references := by
    rcases takePending_cases t select with ⟨heq, -⟩ | ⟨r, pending, heq, -, hp⟩
    · rw [heq] at hx
      exact hx
    · rw [heq] at hx
      exact mem_references_of_sub hx (fun _ he => he) fun _ hr => hp.mem_iff.mpr (List.mem_cons_of_mem _ hr)
  cases op with
  | insert entry room =>
    have hx' : x ∈ (t.insert entry room).1.references := hx
    unfold ObjectHandleTable.insert at hx'
    split at hx'
    · exact .inl hx'
    · rcases freeSelector_cases t with ⟨next, heq⟩ | ⟨next, handle, heq, -⟩
      · rw [heq] at hx'
        exact .inl hx'
      · rw [heq] at hx'
        rcases mem_references_inserted (t := { t with next := next }) (fun _ hr => hr) hx' with hold | hnew
        · exact .inl hold
        · exact .inr (congrArg some hnew.symm)
  | insertAt handle entry room =>
    have hx' : x ∈ (t.insertAt handle entry room).1.references := hx
    unfold ObjectHandleTable.insertAt at hx'
    split at hx'
    · exact .inl hx'
    split at hx'
    · exact .inl hx'
    split at hx'
    · exact .inl hx'
    · exact (mem_references_inserted (fun _ hr => hr) hx').imp (fun hold => hold) fun hnew =>
        congrArg some hnew.symm
  | reserve owner entry room =>
    have hx' : x ∈ (t.reserve owner entry room).1.references := hx
    rcases reserve_cases t owner entry room with ⟨next, heq⟩ | ⟨next, handle, heq, -⟩
    · rw [heq] at hx'
      exact .inl hx'
    · rw [heq] at hx'
      rcases mem_references.mp hx' with ⟨h, hin⟩ | ⟨ticket, hin⟩
      · exact .inl (mem_references.mpr (.inl ⟨h, hin⟩))
      · rcases List.mem_append.mp hin with hin | hin
        · exact .inl (mem_references.mpr (.inr ⟨ticket, hin⟩))
        · exact .inr (congrArg (some ∘ Prod.snd) (List.mem_singleton.mp hin)).symm
  | publishReserved ticket =>
    have hx' : x ∈ (t.publishReserved ticket).1.references := hx
    rcases publishReserved_cases t ticket with ⟨heq, -⟩ | ⟨entry, pending, hp, -, heq⟩
    · rw [heq] at hx'
      exact .inl hx'
    · rw [heq] at hx'
      rcases mem_references_inserted (fun r hr => hp.mem_iff.mpr (List.mem_cons_of_mem _ hr)) hx' with
        hold | hnew
      · exact .inl hold
      · rw [hnew]
        exact .inl (mem_references.mpr (.inr ⟨ticket, hp.mem_iff.mpr List.mem_cons_self⟩))
  | cancelReserved ticket | takeReservationFor owner => exact .inl (taken _ hx)
  | takeEntry handle =>
    have hx' : x ∈ (t.takeEntry handle).1.references := hx
    unfold ObjectHandleTable.takeEntry at hx'
    split at hx'
    · exact .inl hx'
    · exact .inl (mem_references_of_sub hx' (fun _ he => List.mem_of_mem_eraseP he) fun _ hr => hr)
  | retain keep =>
    exact .inl (mem_references_of_sub hx (fun _ he => List.mem_of_mem_filter he) fun _ hr => hr)

end ObjectHandleTable

/-! ## Rights -/

theorem HandleRights.contains_refl (rights : HandleRights) : rights.contains rights = true := by
  simp [HandleRights.contains]

theorem HandleRights.contains_trans {a b c : HandleRights} (hab : a.contains b = true)
    (hbc : b.contains c = true) : a.contains c = true := by
  simp only [HandleRights.contains, decide_eq_true_iff] at hab hbc ⊢
  calc a.bits &&& c.bits = a.bits &&& (b.bits &&& c.bits) := by rw [hbc]
    _ = (a.bits &&& b.bits) &&& c.bits := (BitVec.and_assoc _ _ _).symm
    _ = c.bits := by rw [hab, hbc]

theorem ObjectHandleEntry.restricted_some {ω : Type} {entry copy : ObjectHandleEntry ω}
    {requested : HandleRights} (h : entry.restricted requested = some copy) :
    copy.object = entry.object ∧ entry.rights.contains copy.rights = true := by
  unfold ObjectHandleEntry.restricted at h
  split at h
  · rename_i hcontains
    cases h
    exact ⟨rfl, hcontains⟩
  · cases h

namespace Authority

/-- A derivation as it should be: the same reference, no new rights, and the right to derive. -/
structure Derivation.Lawful (derivation : Derivation) : Prop where
  reference : derivation.target.object = derivation.source.object
  rights : derivation.source.rights.contains derivation.target.rights = true
  right : derivation.source.rights.contains derivation.kind.needs = true

/-- Where a reference is: in the table of a process, or under way. -/
abbrev Place := Option Nat

/-- An entry that was created with its rights where it is, or derived in recorded steps from such an entry.
    Only the derivations that need `TRANSFER` lead from one place to another. -/
inductive Justified (s : State) : Place → Entry → Prop where
  | created {pid entry} : s.created[entry.object.origin]? = some (pid, entry.rights) →
      Justified s (some pid) entry
  | duplicated {derivation} : derivation ∈ s.log → derivation.kind = .duplicate →
      Justified s (some derivation.process) derivation.source →
      Justified s (some derivation.process) derivation.target
  | transferred {derivation source place} : derivation ∈ s.log → derivation.kind ≠ .duplicate →
      Justified s source derivation.source → Justified s place derivation.target

/-- Where a reference can be. -/
inductive State.Holds (s : State) : Place → Entry → Prop where
  | table {pid t entry} : s.tables pid = some t → entry ∈ t.references → s.Holds (some pid) entry
  | mail {entry} : entry ∈ s.mail → s.Holds none entry
  | grant {entry} : entry ∈ s.grants → s.Holds none entry
  | captured {id snapshot captured entry} : s.snapshots id = some snapshot → captured ∈ snapshot →
      captured.exportable = some entry → s.Holds none entry

/-- The invariant of handles and derivations. -/
structure State.Inv (s : State) : Prop where
  lawful : ∀ derivation ∈ s.log, derivation.Lawful
  justified : ∀ place entry, s.Holds place entry → Justified s place entry
  transferable : ∀ id snapshot captured entry, s.snapshots id = some snapshot → captured ∈ snapshot →
    captured.exportable = some entry → entry.rights.contains .transfer = true

variable {s s' : State} {place : Place} {entry copy : Entry} {requested : HandleRights} {pid source : Nat}

/-- What was justified stays so. -/
theorem Justified.mono (h : Justified s place entry) (hlog : ∀ derivation ∈ s.log, derivation ∈ s'.log)
    (hcreated : ∀ (origin : Nat) c, s.created[origin]? = some c → s'.created[origin]? = some c) :
    Justified s' place entry := by
  induction h with
  | created h => exact .created (hcreated _ _ h)
  | duplicated hin hkind _ ih => exact .duplicated (hlog _ hin) hkind ih
  | transferred hin hkind _ ih => exact .transferred (hlog _ hin) hkind ih

/-- What is under way may arrive anywhere. -/
theorem Justified.arrives (h : Justified s none entry) (place : Place) : Justified s place entry := by
  cases h with
  | transferred hin hkind hsource => exact .transferred hin hkind hsource

theorem Kind.needs_eq {kind : Kind} (h : kind ≠ .duplicate) : kind.needs = .transfer := by
  cases kind with
  | duplicate => exact absurd rfl h
  | attach | launch | capture => rfl

/-- Some derivation of the same reference needed `TRANSFER`, and had it. -/
def Crossed (s : State) (reference : Reference) : Prop :=
  ∃ derivation ∈ s.log, derivation.kind ≠ .duplicate ∧ derivation.source.object = reference ∧
    derivation.source.rights.contains .transfer = true

/-- **A justified entry has no rights that its origin did not have, and crossed over if it is elsewhere.** -/
theorem Justified.origin (h : Justified s place entry) (hlawful : ∀ derivation ∈ s.log, derivation.Lawful) :
    ∃ pid rights, s.created[entry.object.origin]? = some (pid, rights) ∧ rights.contains entry.rights = true ∧
      (place = some pid ∨ Crossed s entry.object) := by
  induction h with
  | created h => exact ⟨_, _, h, HandleRights.contains_refl _, .inl rfl⟩
  | @duplicated derivation hin _ _ ih =>
    obtain ⟨pid, rights, hcreated, hcontains, hplace⟩ := ih
    have hd := hlawful derivation hin
    rw [hd.reference]
    exact ⟨pid, rights, hcreated, HandleRights.contains_trans hcontains hd.rights, hplace⟩
  | @transferred derivation _ _ hin hkind _ ih =>
    obtain ⟨pid, rights, hcreated, hcontains, -⟩ := ih
    have hd := hlawful derivation hin
    have htransfer := hd.right
    rw [Kind.needs_eq hkind] at htransfer
    rw [hd.reference]
    refine ⟨pid, rights, hcreated, HandleRights.contains_trans hcontains hd.rights, .inr ?_⟩
    exact ⟨derivation, hin, hkind, rfl, htransfer⟩

variable {t : ObjectHandleTable Reference}

theorem duplicateEntry_lawful
    (hget : t.get source = some entry) (hcopy : t.duplicateEntry source requested = some copy) :
    (⟨.duplicate, pid, entry, copy⟩ : Derivation).Lawful := by
  rw [ObjectHandleTable.duplicateEntry, hget, Option.bind_some] at hcopy
  split at hcopy
  · rename_i hright
    obtain ⟨hobject, hrights⟩ := ObjectHandleEntry.restricted_some hcopy
    exact ⟨hobject, hrights, hright⟩
  · cases hcopy

theorem exportRestricted_lawful
    (kind : Kind) (hkind : kind ≠ .duplicate) (hget : t.get source = some entry)
    (hcopy : t.exportRestricted source requested = some copy) :
    (⟨kind, pid, entry, copy⟩ : Derivation).Lawful := by
  rw [ObjectHandleTable.exportRestricted, hget, Option.bind_some] at hcopy
  split at hcopy
  · rename_i hright
    obtain ⟨hobject, hrights⟩ := ObjectHandleEntry.restricted_some hcopy
    exact ⟨hobject, hrights, (Kind.needs_eq hkind).symm ▸ hright⟩
  · cases hcopy

/-- What a snapshot exports is what it captured, with fewer rights at most. -/
theorem exportRestricted_captured {snapshot : List (CapturedHandle Reference)}
    {captured : CapturedHandle Reference}
    (h : HandleSnapshot.exportRestricted snapshot source requested = .ok copy)
    (hfind : (snapshot.find? fun captured => captured.handle = source) = some captured)
    (hexp : captured.exportable = some entry) :
    copy.object = entry.object ∧ entry.rights.contains copy.rights = true := by
  rw [HandleSnapshot.exportRestricted, hfind] at h
  dsimp only at h
  rw [hexp, Option.bind_some] at h
  split at h
  · cases h
  · rename_i hrestricted
    cases h
    exact ObjectHandleEntry.restricted_some hrestricted

/-- The state after a step, as far as authority goes: a log that has grown lawfully, more creations, and
    references that were there, are new, or were derived. -/
theorem State.Inv.grow (h : s.Inv) (hlog : ∀ derivation ∈ s.log, derivation ∈ s'.log)
    (hnew : ∀ derivation ∈ s'.log, derivation ∈ s.log ∨ derivation.Lawful)
    (hcreated : ∀ (origin : Nat) c, s.created[origin]? = some c → s'.created[origin]? = some c)
    (hholds : ∀ place entry, s'.Holds place entry → s.Holds place entry ∨ Justified s' place entry)
    (htransfer : ∀ id snapshot captured entry, s'.snapshots id = some snapshot → captured ∈ snapshot →
      captured.exportable = some entry → entry.rights.contains .transfer = true) : s'.Inv := by
  refine ⟨?_, ?_, htransfer⟩
  · intro derivation hin
    rcases hnew derivation hin with hold | hlawful
    · exact h.lawful derivation hold
    · exact hlawful
  · intro place entry hentry
    rcases hholds place entry hentry with hold | hj
    · exact (h.justified place entry hold).mono hlog hcreated
    · exact hj

variable {op : ObjectHandleTable.Op Reference}

/-- References move between tables and what waits; they were held, or are justified. -/
theorem State.Inv.move (h : s.Inv) {tables : Nat → Option (ObjectHandleTable Reference)}
    {mail grants : List Entry}
    (next : Nat) (htables : ∀ pid t entry, tables pid = some t → entry ∈ t.references →
      s.Holds (some pid) entry ∨ Justified s (some pid) entry)
    (hmail : ∀ entry ∈ mail, s.Holds none entry ∨ Justified s none entry)
    (hgrants : ∀ entry ∈ grants, s.Holds none entry ∨ Justified s none entry) :
    ({ s with tables := tables, nextProcess := next, mail := mail, grants := grants } : State).Inv := by
  refine h.grow (fun _ hδ => hδ) (fun _ hδ => .inl hδ) (fun _ _ hr => hr) ?_ h.transferable
  intro place entry hentry
  have hbefore : s.Holds place entry ∨ Justified s place entry := by
    cases hentry with
    | table ht hin => exact htables _ _ _ ht hin
    | mail hin => exact hmail entry hin
    | grant hin => exact hgrants entry hin
    | captured hsnap hin hexp => exact .inl (.captured hsnap hin hexp)
  exact hbefore.imp_right fun hj => hj.mono (fun _ hδ => hδ) fun _ _ hr => hr

/-- One table changes. -/
theorem State.Inv.setTable (h : s.Inv) {table : Option (ObjectHandleTable Reference)} (next : Nat)
    (htable : ∀ t entry, table = some t → entry ∈ t.references →
      s.Holds (some pid) entry ∨ Justified s (some pid) entry) :
    ({ s with tables := update s.tables pid table, nextProcess := next } : State).Inv := by
  refine h.move next (fun p t entry ht hin => ?_) (fun _ he => .inl (.mail he)) fun _ he => .inl (.grant he)
  rcases Lib.of_update_eq ht with ⟨rfl, hset⟩ | ⟨-, hold⟩
  · exact htable t entry hset hin
  · exact .inl (.table hold hin)

/-- An operation that brings a justified reference, or none, into a table. -/
theorem State.Inv.onTable (h : s.Inv)
    (hbrings : ∀ entry, op.brings = some entry → Justified s (some pid) entry)
    (hs : s.onTable pid op = some s') : s'.Inv := by
  obtain ⟨t, ht, rfl⟩ := Option.map_eq_some_iff.mp hs
  refine h.setTable s.nextProcess ?_
  rintro _ entry ⟨⟩ hin
  rcases ObjectHandleTable.mem_references_apply hin with hold | hnew
  · exact .inl (.table ht hold)
  · exact .inr (hbrings entry hnew)

theorem created_append {created : List (Nat × HandleRights)} (new : Nat × HandleRights) {origin : Nat}
    {c : Nat × HandleRights} (h : created[origin]? = some c) : (created ++ [new])[origin]? = some c := by
  obtain ⟨hlt, -⟩ := List.getElem?_eq_some_iff.mp h
  rw [List.getElem?_append_left hlt]
  exact h

/-- A lawful derivation is recorded. -/
theorem State.Inv.record (h : s.Inv) {derivation : Derivation} (hlawful : derivation.Lawful) :
    ({ s with log := derivation :: s.log } : State).Inv := by
  refine h.grow (fun δ hδ => List.mem_cons_of_mem _ hδ) ?_ (fun _ _ hr => hr) ?_ h.transferable
  · intro δ hδ
    rcases List.mem_cons.mp hδ with rfl | hδ
    · exact .inr hlawful
    · exact .inl hδ
  · intro place entry hentry
    refine .inl ?_
    cases hentry with
    | table ht hin => exact .table ht hin
    | mail hin => exact .mail hin
    | grant hin => exact .grant hin
    | captured hsnap hin hexp => exact .captured hsnap hin hexp

/-- What a derivation with `TRANSFER` makes may go anywhere. -/
theorem State.Inv.transferred (h : s.Inv) {derivation : Derivation} (hkind : derivation.kind ≠ .duplicate)
    (hsource : s.Holds place derivation.source) :
    Justified { s with log := derivation :: s.log } none derivation.target :=
  .transferred List.mem_cons_self hkind
    ((h.justified _ _ hsource).mono (fun _ hδ => List.mem_cons_of_mem _ hδ) fun _ _ hr => hr)

/-- What waits changes, to references that were held or are justified. -/
theorem State.Inv.wait (h : s.Inv) {mail grants : List Entry}
    (hmail : ∀ entry ∈ mail, s.Holds none entry ∨ Justified s none entry)
    (hgrants : ∀ entry ∈ grants, s.Holds none entry ∨ Justified s none entry) :
    ({ s with mail := mail, grants := grants } : State).Inv :=
  h.move s.nextProcess (fun _ _ _ ht hin => .inl (.table ht hin)) hmail hgrants

/-- A launch is granted a derived entry. -/
theorem State.Inv.deriveGrant (h : s.Inv) {derivation : Derivation} (hlawful : derivation.Lawful)
    (hkind : derivation.kind ≠ .duplicate) (hsource : s.Holds place derivation.source) :
    ({ s with grants := s.grants ++ [derivation.target], log := derivation :: s.log } : State).Inv := by
  refine (h.record hlawful).wait (fun e he => .inl (.mail he))
    (List.forall_mem_append.mpr ⟨fun e he => .inl (.grant he), ?_⟩)
  exact List.forall_mem_singleton.mpr (.inr (h.transferred hkind hsource))

/-- A reference is created. -/
theorem State.Inv.createRights (h : s.Inv) (new : Nat × HandleRights) :
    ({ s with created := s.created ++ [new] } : State).Inv := by
  refine h.grow (fun _ hδ => hδ) (fun _ hδ => .inl hδ) (fun _ _ hr => created_append new hr) ?_ h.transferable
  intro place entry hentry
  refine .inl ?_
  cases hentry with
  | table ht hin => exact .table ht hin
  | mail hin => exact .mail hin
  | grant hin => exact .grant hin
  | captured hsnap hin hexp => exact .captured hsnap hin hexp

/-- `table_capture`, up to the handle for the snapshot: what it keeps may be transferred. -/
theorem State.Inv.takeSnapshot (h : s.Inv) (ht : s.tables pid = some t) : ({ s with
      snapshots := update s.snapshots s.nextSnapshot (some (HandleSnapshot.capture t))
      nextSnapshot := s.nextSnapshot + 1
      log := (HandleSnapshot.capture t).filterMap (derivation pid) ++ s.log } : State).Inv := by
  have hcapture : ∀ captured ∈ HandleSnapshot.capture t, ∀ entry, captured.exportable = some entry →
      entry ∈ t.references ∧ entry.rights.contains .transfer = true := by
    intro captured hin entry hexp
    obtain ⟨⟨handle, found⟩, hfound, rfl⟩ := List.mem_map.mp hin
    have hexp' : (if found.rights.contains .transfer then some found else none) = some entry := hexp
    split at hexp'
    · rename_i htransfer
      cases hexp'
      exact ⟨ObjectHandleTable.mem_references.mpr (.inl ⟨handle, hfound⟩), htransfer⟩
    · cases hexp'
  have hsnapshot : ∀ id snapshot, update s.snapshots s.nextSnapshot
      (some (HandleSnapshot.capture t)) id = some snapshot →
      s.snapshots id = some snapshot ∨ snapshot = HandleSnapshot.capture t := by
    intro id snapshot hsnap
    rw [update_apply] at hsnap
    split at hsnap
    · cases hsnap
      exact .inr rfl
    · exact .inl hsnap
  refine h.grow (fun δ hδ => List.mem_append_right _ hδ) ?_ (fun _ _ hr => hr) ?_ ?_
  · intro δ hδ
    rcases List.mem_append.mp hδ with hδ | hδ
    · obtain ⟨captured, hin, hd⟩ := List.mem_filterMap.mp hδ
      obtain ⟨entry, hexp, rfl⟩ := Option.map_eq_some_iff.mp hd
      exact .inr ⟨rfl, HandleRights.contains_refl _, (hcapture captured hin entry hexp).2⟩
    · exact .inl hδ
  · intro place entry hentry
    cases hentry with
    | table ht' hin => exact .inl (.table ht' hin)
    | mail hin => exact .inl (.mail hin)
    | grant hin => exact .inl (.grant hin)
    | captured hsnap hin hexp =>
      rcases hsnapshot _ _ hsnap with hold | rfl
      · exact .inl (.captured hold hin hexp)
      · have hd : (⟨.capture, pid, entry, entry⟩ : Derivation) ∈
            (HandleSnapshot.capture t).filterMap (derivation pid) :=
          List.mem_filterMap.mpr ⟨_, hin, by rw [derivation, hexp]; rfl⟩
        have hj := h.justified _ entry (.table ht (hcapture _ hin _ hexp).1)
        refine .inr (@Justified.transferred _ ⟨.capture, pid, entry, entry⟩ (some pid) none
          (List.mem_append_left _ hd) (by simp) (hj.mono ?_ fun _ _ hr => hr))
        exact fun _ hδ => List.mem_append_right _ hδ
  · intro id snapshot captured entry hsnap hin hexp
    rcases hsnapshot id snapshot hsnap with hold | rfl
    · exact h.transferable id snapshot captured entry hold hin hexp
    · exact (hcapture captured hin entry hexp).2

theorem State.Inv.step (h : s.Inv) {l : Label} (hs : s.step l = some s') : s'.Inv := by
  have nothing {pid : Nat} {op : ObjectHandleTable.Op Reference} (hop : op.brings = none) :
      ∀ entry, op.brings = some entry → Justified s (some pid) entry := by
    intro entry he
    rw [hop] at he
    cases he
  cases l with
  | spawn =>
    cases hs
    refine h.setTable _ ?_
    rintro _ entry ⟨⟩ hin
    cases hin
  | reap pid =>
    cases hs
    exact h.setTable s.nextProcess nofun
  | create pid id rights room =>
    refine (h.createRights (pid, rights)).onTable ?_ hs
    intro entry he
    cases he
    exact .created (List.getElem?_concat_length ..)
  | duplicate pid source requested room =>
    obtain ⟨t, ht, hs⟩ := Option.bind_eq_some_iff.mp hs
    split at hs
    · rename_i entry copy hget hcopy
      refine (h.record (duplicateEntry_lawful hget hcopy)).onTable ?_ hs
      intro e he
      cases he
      have hj := h.justified _ entry (.table ht (ObjectHandleTable.mem_references_of_get hget))
      exact @Justified.duplicated _ ⟨.duplicate, pid, entry, copy⟩ List.mem_cons_self rfl
        (hj.mono (fun _ hδ => List.mem_cons_of_mem _ hδ) fun _ _ hr => hr)
    · cases hs
  | attach pid source requested =>
    obtain ⟨t, ht, hs⟩ := Option.bind_eq_some_iff.mp hs
    split at hs
    · rename_i entry copy hget hcopy
      cases hs
      refine (h.record (exportRestricted_lawful .attach (by simp) hget hcopy)).wait
        (List.forall_mem_append.mpr ⟨fun e he => .inl (.mail he), ?_⟩) fun e he => .inl (.grant he)
      exact List.forall_mem_singleton.mpr (.inr (h.transferred (by simp)
        (.table ht (ObjectHandleTable.mem_references_of_get hget))))
    · cases hs
  | receive pid owner index room =>
    obtain ⟨entry, hentry, hs⟩ := Option.bind_eq_some_iff.mp hs
    have hj := (h.justified _ entry (.mail (List.mem_of_getElem? hentry))).arrives (some pid)
    have hinv : ({ s with mail := s.mail.eraseIdx index } : State).Inv :=
      h.wait (fun e he => .inl (.mail (List.mem_of_mem_eraseIdx he))) fun e he => .inl (.grant he)
    refine hinv.onTable ?_ hs
    intro e he
    cases he
    exact hj.mono (fun _ hδ => hδ) fun _ _ hr => hr
  | dropMail index =>
    cases hs
    exact h.wait (fun e he => .inl (.mail (List.mem_of_mem_eraseIdx he))) fun e he => .inl (.grant he)
  | capture pid room =>
    obtain ⟨t, ht, hs⟩ := Option.bind_eq_some_iff.mp hs
    refine ((h.takeSnapshot ht).createRights (pid, snapshotRights)).onTable ?_ hs
    intro entry he
    cases he
    exact .created (List.getElem?_concat_length ..)
  | grant pid source requested =>
    obtain ⟨t, ht, hs⟩ := Option.bind_eq_some_iff.mp hs
    split at hs
    · rename_i entry copy hget hcopy
      cases hs
      exact h.deriveGrant (exportRestricted_lawful .launch (by simp) hget hcopy) (by simp)
        (.table ht (ObjectHandleTable.mem_references_of_get hget))
    · cases hs
  | grantCaptured pid snapshot source requested =>
    obtain ⟨t, ht, hs⟩ := Option.bind_eq_some_iff.mp hs
    split at hs
    · split at hs
      · obtain ⟨captures, hsnap, hs⟩ := Option.bind_eq_some_iff.mp hs
        split at hs
        · rename_i copy entry hexport hfound
          cases hs
          obtain ⟨captured, hfind, hexp⟩ := Option.bind_eq_some_iff.mp hfound
          have hin := List.mem_of_find?_eq_some hfind
          obtain ⟨hobject, hrights⟩ := exportRestricted_captured hexport hfind hexp
          have hlawful : (⟨.launch, pid, entry, copy⟩ : Derivation).Lawful :=
            ⟨hobject, hrights, h.transferable _ _ _ _ hsnap hin hexp⟩
          exact h.deriveGrant hlawful (by simp) (.captured hsnap hin hexp)
        · cases hs
      · cases hs
    · cases hs
  | install pid index target room =>
    obtain ⟨entry, hentry, hs⟩ := Option.bind_eq_some_iff.mp hs
    have hj := (h.justified _ entry (.grant (List.mem_of_getElem? hentry))).arrives (some pid)
    refine h.onTable ?_ hs
    intro e he
    cases target with
    | none | some handle =>
      cases he
      exact hj
  | dropGrant index =>
    cases hs
    exact h.wait (fun e he => .inl (.mail he)) fun e he => .inl (.grant (List.mem_of_mem_eraseIdx he))
  | publishReserved pid ticket | cancelReserved pid ticket | takeReservationFor pid owner | close pid handle
  | retain pid keep => exact h.onTable (nothing rfl) hs

theorem State.inv_initial : State.initial.Inv := by
  refine ⟨?_, ?_, ?_⟩
  · intro δ hδ
    cases hδ
  · intro place entry hentry
    cases hentry with
    | table ht => cases ht
    | mail hin | grant hin => cases hin
    | captured hsnap => cases hsnap
  · intro id snapshot captured entry hsnap
    cases hsnap

/-- **Rights only shrink.** In every run, whatever reference a table, a reservation, a message, a launch or a
    snapshot holds goes back to a creation by recorded derivations, and has no right that the created handle
    did not have. Each derivation is from an entry with all the rights of the result: a duplicate, which stays
    in its process, from one with `DUPLICATE`, every other one from one with `TRANSFER`. So a reference that
    is elsewhere than in the process of its creation was transferred from an entry with `TRANSFER`. -/
theorem rights_only_shrink (s : State) (hs : system.Reachable s) :
    (∀ place entry, s.Holds place entry → Justified s place entry ∧
      ∃ pid rights, s.created[entry.object.origin]? = some (pid, rights) ∧
        rights.contains entry.rights = true ∧ (place = some pid ∨ Crossed s entry.object)) ∧
      ∀ derivation ∈ s.log, derivation.Lawful := by
  have h : s.Inv := by
    refine hs.invariant (I := State.Inv) ?_ fun s l s' h _ hstep => h.step hstep
    intro s hinit
    cases hinit
    exact State.inv_initial
  refine ⟨fun place entry hentry => ?_, h.lawful⟩
  have hj := h.justified place entry hentry
  exact ⟨hj, hj.origin h.lawful⟩

/-- A handle with all rights is duplicated, sent on with fewer rights, received, captured and launched with.
    -/
def passItOn : List Label :=
  [.spawn, .spawn, .create 1 7 ⟨BitVec.allOnes 64⟩ true, .duplicate 1 1 ⟨BitVec.allOnes 64⟩ true,
    .attach 1 2 (HandleRights.read.union .transfer), .receive 2 5 0 true, .publishReserved 2 ⟨1, 1, 5⟩,
    .capture 2 true, .close 2 1, .grantCaptured 2 2 1 .read, .spawn, .install 3 0 none true]

theorem rights_only_shrink_passItOn : ∃ s, system.Reachable s ∧ s.log.length = 4 ∧
      ∃ t entry, s.tables 3 = some t ∧ t.get 1 = some entry ∧ entry.rights = .read ∧
        Justified s (some 3) entry := by
  obtain ⟨s, hs, hp⟩ := System.reachable_of_exec system .initial passItOn (fun s => s.log.length = 4 ∧
      (s.tables 3).any (fun t => (t.get 1).any fun entry => decide (entry.rights = .read)) = true) rfl
    (by decide +kernel)
  obtain ⟨t, ht, hget⟩ := (Option.any_eq_true _ _).mp hp.2
  obtain ⟨entry, hentry, hrights⟩ := (Option.any_eq_true _ _).mp hget
  have hholds : s.Holds (some 3) entry := .table ht (ObjectHandleTable.mem_references_of_get hentry)
  exact ⟨s, hs, hp.1, t, entry, ht, hentry, of_decide_eq_true hrights,
    ((rights_only_shrink s hs).1 _ entry hholds).1⟩

end Authority

end Mnu.Task
