import Mnu.Lib.Run
import Mnu.Lib.Update
import Mnu.Capability.Set

/-!
# `Mnu.Syscall.Capability` — cloning, dropping, transferring and restricting capabilities

`src/syscall/capability.rs`. A call reads its arguments, checks what it can without the process table, and
changes the sets of one or two processes under its lock. Everything before that can be out of date by then:
the other threads of the caller, and every other process, make their calls in between. So each access to a
shared table is a step of its own, and a call is the list of what it has yet to do (`Call`).

Nothing but the exact check under the lock stands between a transfer and a second copy. It is enough: a call
moves an entry that is there, or replaces it by one that it implies, and implication is transitive.

The text of an argument is what `parse_kernel_authority_spec` makes of it (`Text`); the way to the destination
process, the copy from user memory and the storage for one more entry are given with the call.
-/

namespace Mnu.Syscall.Capability

open Mnu.Lib Mnu.Capabilities Function

/-- The name of a process. -/
abbrev ProcessId := Nat
/-- The name of a thread. -/
abbrev ThreadId := Nat

/-- The errors of these calls among those of `Error`. -/
inductive Error where
  | notReady
  | notFound
  | invalidArgument
  | invalidAddress
  | limitExceeded
  | accessDenied
  | resourceUnavailable
  deriving DecidableEq, Repr

/-- The fields of a process that these calls read. -/
structure Process where
  capabilities : CapabilitySet
  kernelAuthorities : KernelAuthoritySet
  exePath : String
  deriving DecidableEq, Repr

/-- What a call names: a capability or an authority. -/
inductive CapabilityToken where
  | plain (capability : Capability)
  | authority (authority : KernelAuthority)
  deriving DecidableEq, Repr

/-- A text: an authority, or else a name. -/
inductive Text where
  | authority (authority : KernelAuthority)
  | name (name : String)
  deriving DecidableEq, Repr

/-- An argument as a whole, and split at the first `\x1f` if it has one. -/
structure Spec where
  whole : Text
  split : Option (Text × String)
  deriving DecidableEq, Repr

/-- What the calls share: the process table and the registry of names. -/
structure Tables where
  processes : ProcessId → Option Process
  registry : List String

/-- `parse_capability_token` -/
def parseCapabilityToken (registry : List String) : Text → Option CapabilityToken
  | .authority a => some (.authority a)
  | .name name => (Capability.fromStr registry name).map .plain

/-- `process_has_capability` -/
def Tables.hasCapability (T : Tables) (pid : ProcessId) (c : Capability) : Bool :=
  (T.processes pid).any fun proc => proc.capabilities.implies c

/-- `process_has_kernel_authority` -/
def Tables.hasKernelAuthority (T : Tables) (pid : ProcessId) (a : KernelAuthority) : Bool :=
  (T.processes pid).any fun proc => proc.kernelAuthorities.implies a

/-- Whether a process has what is named. -/
def Tables.has (T : Tables) (pid : ProcessId) : CapabilityToken → Bool
  | .plain c => T.hasCapability pid c
  | .authority a => T.hasKernelAuthority pid a

/-- A process written back. -/
def Tables.set (T : Tables) (pid : ProcessId) (proc : Process) : Tables :=
  { T with processes := update T.processes pid (some proc) }

/-- A process taken out. -/
def Tables.remove (T : Tables) (pid : ProcessId) : Tables :=
  { T with processes := update T.processes pid none }

/-! ## Calls -/

/-- What a thread asks for: its process, and its arguments as they were read. -/
inductive Request where
  | clone (current : Option ProcessId) (spec : Except Error Spec)
  | drop (current : Option ProcessId) (spec : Except Error Spec)
  | transfer (current : Option ProcessId) (spec : Except Error Spec) (dest : Option ProcessId)
  | restrict (current : Option ProcessId) (spec restriction : Except Error Spec)

/-- What a call has yet to do. -/
inductive Call where
  /-- `clone_capability`: the check. -/
  | cloning (current : ProcessId) (cap : CapabilityToken)
  /-- `drop_capability`: the removal. -/
  | dropping (current : ProcessId) (cap : CapabilityToken)
  /-- `transfer_capability`: does the caller manage capabilities? -/
  | managing (current dest : ProcessId) (spec : Spec)
  /-- It does: is the destination the program that it names? -/
  | naming (current dest : ProcessId) (text : Text) (path : String)
  /-- It is: intern the name. -/
  | interning (current dest : ProcessId) (text : Text) (path : String)
  /-- Is the capability delegable? -/
  | granting (current dest : ProcessId) (capability : Capability) (path : String)
  /-- Insert it. -/
  | inserting (current dest : ProcessId) (capability : Capability) (path : String)
  /-- It does not: parse the whole. -/
  | parsing (current dest : ProcessId) (spec : Spec)
  /-- Does the caller have it? -/
  | checking (current dest : ProcessId) (cap : CapabilityToken)
  /-- Is it delegable? -/
  | delegating (current dest : ProcessId) (capability : Capability)
  /-- Move it. -/
  | moving (current dest : ProcessId) (cap : CapabilityToken)
  /-- `restrict_capability`: the replacement. -/
  | restricting (current : ProcessId) (cap restriction : CapabilityToken)
  deriving DecidableEq, Repr

/-- What a call returns. -/
abbrev Outcome := Except Error Unit

/-- `read_capability_token_from_user` -/
def readCapabilityToken (registry : List String) (spec : Except Error Spec) : Except Error CapabilityToken :=
  match spec with
  | .error e => .error e
  | .ok spec =>
    match parseCapabilityToken registry spec.whole with
    | some cap => .ok cap
    | none => .error .invalidArgument

/-- The beginning of a call, up to its first look at a process. -/
def Request.start (registry : List String) : Request → Except Error Call
  | .clone none _ | .drop none _ | .transfer none _ _ | .restrict none _ _ => .error .notReady
  | .clone (some current) spec => (readCapabilityToken registry spec).map (.cloning current)
  | .drop (some current) spec => (readCapabilityToken registry spec).map (.dropping current)
  | .transfer (some current) spec dest =>
    match spec, dest with
    | .error e, _ => .error e
    | .ok _, none => .error .notFound
    | .ok spec, some dest => .ok (.managing current dest spec)
  | .restrict (some current) spec restriction =>
    match readCapabilityToken registry spec, readCapabilityToken registry restriction with
    | .error e, _ => .error e
    | .ok _, .error e => .error e
    | .ok (.plain cap), .ok (.plain restriction) =>
      if capabilityImplies cap restriction then .ok (.restricting current (.plain cap) (.plain restriction))
      else .error .accessDenied
    | .ok (.authority cap), .ok (.authority restriction) =>
      if kernelAuthorityImplies cap restriction then
        .ok (.restricting current (.authority cap) (.authority restriction))
      else .error .accessDenied
    | .ok _, .ok _ => .error .invalidArgument

/-- The body of `drop_capability` under the lock. -/
def Process.drop (proc : Process) : CapabilityToken → Process × Bool
  | .plain c => let r := proc.capabilities.remove c; ({ proc with capabilities := r.1 }, r.2)
  | .authority a =>
    let r := proc.kernelAuthorities.removeExact a
    ({ proc with kernelAuthorities := r.1 }, r.2)

/-- The receiver's half of a transfer. -/
def Process.receive (proc : Process) (room : Bool) : CapabilityToken → Option Process
  | .plain c => (proc.capabilities.tryInsert c room).map fun caps => { proc with capabilities := caps }
  | .authority a => (proc.kernelAuthorities.tryInsert a room).map fun auths =>
    { proc with kernelAuthorities := auths }

/-- Whether a process holds just this. -/
def Process.containsExact (proc : Process) : CapabilityToken → Bool
  | .plain c => proc.capabilities.containsExact c
  | .authority a => proc.kernelAuthorities.containsExact a

/-- The body of `restrict_capability` under the lock. -/
def Process.restrict (proc : Process) (cap restriction : CapabilityToken) : Except Error Process :=
  if !proc.containsExact cap then .error .accessDenied
  else if cap = restriction then .ok proc
  else
    match cap, restriction with
    | .plain c, .plain r => .ok { proc with capabilities := (proc.capabilities.remove c).1.insert r }
    | .authority a, .authority r =>
      .ok { proc with kernelAuthorities := (proc.kernelAuthorities.removeExact a).1.insert r }
    | _, _ => .ok proc

/-- One step of a call. It goes on, or it ends with an outcome. -/
def Call.advance (T : Tables) (room : Bool) : Call → Tables × (Call ⊕ Outcome)
  | .cloning current cap => (T, .inr (if T.has current cap then .ok () else .error .accessDenied))
  | .dropping current cap =>
    match T.processes current with
    | none => (T, .inr (.error .notReady))
    | some proc =>
      match proc.drop cap with
      | (proc, removed) => (T.set current proc, .inr (if removed then .ok () else .error .accessDenied))
  | .managing current dest spec =>
    if T.hasCapability current .capabilitiesManage then
      match spec.split with
      | none => (T, .inr (.error .accessDenied))
      | some (text, path) => (T, .inl (.naming current dest text path))
    else (T, .inl (.parsing current dest spec))
  | .naming current dest text path =>
    if (T.processes dest).any fun proc => proc.exePath = path then
      (T, .inl (.interning current dest text path))
    else (T, .inr (.error .accessDenied))
  | .interning current dest text path =>
    match text with
    | .authority _ => (T, .inr (.error .accessDenied))
    | .name name =>
      match Capability.intern T.registry name room with
      | none => (T, .inr (.error .invalidArgument))
      | some (registry, c) => ({ T with registry := registry }, .inl (.granting current dest c path))
  | .granting current dest c path =>
    if c.isDelegable T.registry then (T, .inl (.inserting current dest c path))
      else (T, .inr (.error .accessDenied))
  | .inserting _ dest c path =>
    match T.processes dest with
    | none => (T, .inr (.error .notFound))
    | some proc =>
      if proc.exePath ≠ path then (T, .inr (.error .accessDenied))
      else
        match proc.receive room (.plain c) with
        | none => (T, .inr (.error .resourceUnavailable))
        | some proc => (T.set dest proc, .inr (.ok ()))
  | .parsing current dest spec =>
    match parseCapabilityToken T.registry spec.whole with
    | none => (T, .inr (.error .invalidArgument))
    | some cap => (T, .inl (.checking current dest cap))
  | .checking current dest cap =>
    if !T.has current cap then (T, .inr (.error .accessDenied))
    else
      match cap with
      | .plain c => (T, .inl (.delegating current dest c))
      | .authority a => if dest = current then (T, .inr (.ok ()))
          else (T, .inl (.moving current dest (.authority a)))
  | .delegating current dest c =>
    if !c.isDelegable T.registry then (T, .inr (.error .accessDenied))
    else if dest = current then (T, .inr (.ok ()))
    else (T, .inl (.moving current dest (.plain c)))
  | .moving current dest cap =>
    -- `with_process_pair_mut`
    if current = dest then (T, .inr (.error .notFound))
    else
      match T.processes current, T.processes dest with
      | some source, some destination =>
        if !source.containsExact cap then (T, .inr (.error .accessDenied))
        else
          match destination.receive room cap with
          | none => (T, .inr (.error .resourceUnavailable))
          | some destination => ((T.set dest destination).set current (source.drop cap).1, .inr (.ok ()))
      | _, _ => (T, .inr (.error .notFound))
  | .restricting current cap restriction =>
    match T.processes current with
    | none => (T, .inr (.error .notReady))
    | some proc =>
      match proc.restrict cap restriction with
      | .error e => (T, .inr (.error e))
      | .ok proc => (T.set current proc, .inr (.ok ()))

/-! ## Runs -/

/-- The tables, the calls under way, and what calls returned. -/
structure State where
  tables : Tables
  calls : ThreadId → Option Call
  /-- What the last call of a thread returned. -/
  outcomes : ThreadId → Option Outcome

/-- A request, a step of a call, or a change of processes. -/
inductive Label where
  | request (thread : ThreadId) (request : Request)
  | advance (thread : ThreadId) (room : Bool)
  /-- A service interns a name. -/
  | intern (name : String) (room : Bool)
  /-- A process leaves the table. -/
  | exit (pid : ProcessId)

/-- A request starts a call, which goes on one lock at a time. -/
def step (s : State) : Label → Option State
  | .request t request =>
    match s.calls t with
    | some _ => none
    | none =>
      match request.start s.tables.registry with
      | .error e => some { s with outcomes := update s.outcomes t (some (.error e)) }
      | .ok call => some { s with calls := update s.calls t (some call) }
  | .advance t room =>
    match s.calls t with
    | none => none
    | some call =>
      match call.advance s.tables room with
      | (tables, .inl call) => some { s with tables := tables, calls := update s.calls t (some call) }
      | (tables, .inr outcome) => some
          { tables := tables, calls := update s.calls t none,
            outcomes := update s.outcomes t (some outcome) }
  | .intern name room =>
    match Capability.intern s.tables.registry name room with
    | none => some s
    | some (registry, _) => some { s with tables := { s.tables with registry := registry } }
  | .exit pid => some { s with tables := s.tables.remove pid }

/-- The calls from a given state of the tables on. -/
def machine (T : Tables) : System State Label where
  init s := s = ⟨T, fun _ => none, fun _ => none⟩
  step := step

/-- The process that makes a call. -/
def Call.current : Call → ProcessId
  | .cloning current _ | .dropping current _ | .managing current _ _ | .naming current _ _ _
  | .interning current _ _ _
  | .granting current _ _ _ | .inserting current _ _ _ | .parsing current _ _ | .checking current _ _
  | .delegating current _ _ | .moving current _ _ | .restricting current _ _ => current

/-- The caller does not manage capabilities. -/
def unmanaged (s : State) : Label → Bool
  | .advance t _ => (s.calls t).all fun call => !s.tables.hasCapability call.current .capabilitiesManage
  | _ => true

/-! ## What all processes together imply -/

section Pool

variable {ι α : Type} (R : α → α → Prop)

/-- What someone holds implies `a`. -/
def Implied (held : ι → α → Prop) (a : α) : Prop := ∃ i b, held i b ∧ R b a

/-- If whatever is held now was held or implied before, then whatever is implied now was implied before. -/
theorem Implied.mono {R : α → α → Prop} (hR : ∀ a b c, R a b → R b c → R a c) {held held' : ι → α → Prop}
    (h : ∀ i a, held' i a → (∃ j, held j a) ∨ Implied R held a) {a : α} (ha : Implied R held' a) :
    Implied R held a := by
  obtain ⟨i, b, hb, hba⟩ := ha
  rcases h i b hb with ⟨j, hj⟩ | ⟨j, c, hc, hcb⟩
  · exact ⟨j, b, hj, hba⟩
  · exact ⟨j, c, hc, hR c b a hcb hba⟩

end Pool

/-- A process has the capability in its list. -/
def Tables.holds (T : Tables) (pid : ProcessId) (c : Capability) : Prop :=
  ∃ proc, T.processes pid = some proc ∧ c ∈ proc.capabilities.caps

/-- A process has the authority in its list. -/
def Tables.holdsAuthority (T : Tables) (pid : ProcessId) (a : KernelAuthority) : Prop :=
  ∃ proc, T.processes pid = some proc ∧ a ∈ proc.kernelAuthorities.authorities

/-- Some process has the capability. -/
def Tables.Capable (T : Tables) (c : Capability) : Prop := ∃ pid, T.hasCapability pid c = true

/-- Some process has the authority. -/
def Tables.Authorized (T : Tables) (a : KernelAuthority) : Prop := ∃ pid, T.hasKernelAuthority pid a = true

/-- All lists are sorted. -/
def Tables.Sorted (T : Tables) : Prop := ∀ pid proc, T.processes pid = some proc → proc.capabilities.Sorted

theorem capable_iff {T : Tables} {c : Capability} :
    T.Capable c ↔ Implied (fun a b => capabilityImplies a b = true) T.holds c := by
  simp only [Tables.Capable, Tables.hasCapability, Option.any_eq_true, CapabilitySet.implies_iff,
    Implied, Tables.holds]
  exact ⟨fun ⟨pid, proc, hp, a, ha, hac⟩ => ⟨pid, a, ⟨proc, hp, ha⟩, hac⟩,
    fun ⟨pid, a, ⟨proc, hp, ha⟩, hac⟩ => ⟨pid, proc, hp, a, ha, hac⟩⟩

theorem authorized_iff {T : Tables} {a : KernelAuthority} :
    T.Authorized a ↔ Implied (fun a b => kernelAuthorityImplies a b = true) T.holdsAuthority a := by
  simp only [Tables.Authorized, Tables.hasKernelAuthority, Option.any_eq_true,
    KernelAuthoritySet.implies_iff, Implied, Tables.holdsAuthority]
  exact ⟨fun ⟨pid, proc, hp, b, hb, hba⟩ => ⟨pid, b, ⟨proc, hp, hb⟩, hba⟩,
    fun ⟨pid, b, ⟨proc, hp, hb⟩, hba⟩ => ⟨pid, proc, hp, b, hb, hba⟩⟩

/-! ## The bodies under the lock -/

section Bodies

variable {proc proc' : Process} {cap restriction : CapabilityToken} {room : Bool}
  (hs : proc.capabilities.Sorted)

include hs in
theorem containsExact_plain {c : Capability} :
    proc.containsExact (.plain c) = true ↔ c ∈ proc.capabilities.caps := CapabilitySet.containsExact_iff hs

theorem containsExact_authority {a : KernelAuthority} :
    proc.containsExact (.authority a) = true ↔ a ∈ proc.kernelAuthorities.authorities := decide_eq_true_iff

/-- **Dropping** only loses. -/
theorem drop_ok (cap : CapabilityToken) (hs : proc.capabilities.Sorted) :
    (proc.drop cap).1.capabilities.Sorted ∧
    (∀ c ∈ (proc.drop cap).1.capabilities.caps, c ∈ proc.capabilities.caps) ∧
    ∀ a ∈ (proc.drop cap).1.kernelAuthorities.authorities, a ∈ proc.kernelAuthorities.authorities := by
  cases cap with
  | plain c =>
    exact ⟨CapabilitySet.sorted_remove hs, fun d hd => ((CapabilitySet.mem_remove hs).mp hd).1, fun _ => id⟩
  | authority a => exact ⟨hs, fun _ => id, fun b hb => KernelAuthoritySet.mem_of_removeExact hb⟩

theorem drop_of_false (h : (proc.drop cap).2 = false) : (proc.drop cap).1 = proc := by
  cases cap with
  | plain c => simp only [Process.drop, CapabilitySet.remove_of_false h]
  | authority a => simp only [Process.drop, KernelAuthoritySet.removeExact_of_false h]

include hs

/-- **Receiving** adds what was sent. -/
theorem receive_ok (h : proc.receive room cap = some proc') : proc'.capabilities.Sorted ∧
    (∀ c ∈ proc'.capabilities.caps, c ∈ proc.capabilities.caps ∨ cap = .plain c) ∧
    ∀ a ∈ proc'.kernelAuthorities.authorities, a ∈ proc.kernelAuthorities.authorities ∨
      cap = .authority a := by
  cases cap with
  | plain c =>
    obtain ⟨caps, hcaps, rfl⟩ := Option.map_eq_some_iff.mp h
    rw [CapabilitySet.tryInsert_eq hcaps]
    refine ⟨CapabilitySet.sorted_insert hs, fun d hd => ?_, fun _ => .inl⟩
    rcases (CapabilitySet.mem_insert hs).mp hd with rfl | hd
    · exact .inr rfl
    · exact .inl hd
  | authority a =>
    obtain ⟨auths, hauths, rfl⟩ := Option.map_eq_some_iff.mp h
    rw [KernelAuthoritySet.tryInsert_eq hauths]
    refine ⟨hs, fun _ => .inl, fun b hb => ?_⟩
    rcases KernelAuthoritySet.mem_insert.mp hb with rfl | hb
    · exact .inr rfl
    · exact .inl hb

/-- **Restricting** adds what is implied. -/
theorem restrict_ok (h : proc.restrict cap restriction = .ok proc') : proc'.capabilities.Sorted ∧
    (∀ c ∈ proc'.capabilities.caps, c ∈ proc.capabilities.caps ∨
      restriction = .plain c ∧ ∃ d ∈ proc.capabilities.caps, cap = .plain d) ∧
    ∀ a ∈ proc'.kernelAuthorities.authorities, a ∈ proc.kernelAuthorities.authorities ∨
      restriction = .authority a ∧ ∃ b ∈ proc.kernelAuthorities.authorities, cap = .authority b := by
  simp only [Process.restrict] at h
  split at h
  · cases h
  rename_i hc
  rw [Bool.not_eq_true', Bool.not_eq_false] at hc
  split at h
  · cases h
    exact ⟨hs, fun _ => .inl, fun _ => .inl⟩
  · cases cap with
    | plain d =>
      cases restriction with
      | plain r =>
        cases h
        have hs' : (proc.capabilities.remove d).1.Sorted := CapabilitySet.sorted_remove hs
        refine ⟨CapabilitySet.sorted_insert hs', fun c hin => ?_, fun _ => .inl⟩
        rcases (CapabilitySet.mem_insert hs').mp hin with rfl | hin
        · exact .inr ⟨rfl, d, (containsExact_plain hs).mp hc, rfl⟩
        · exact .inl ((CapabilitySet.mem_remove hs).mp hin).1
      | authority r =>
        cases h
        exact ⟨hs, fun _ => .inl, fun _ => .inl⟩
    | authority b =>
      cases restriction with
      | plain r =>
        cases h
        exact ⟨hs, fun _ => .inl, fun _ => .inl⟩
      | authority r =>
        cases h
        refine ⟨hs, fun _ => .inl, fun a hin => ?_⟩
        rcases KernelAuthoritySet.mem_insert.mp hin with rfl | hin
        · exact .inr ⟨rfl, b, containsExact_authority.mp hc, rfl⟩
        · exact .inl (KernelAuthoritySet.mem_of_removeExact hin)

end Bodies

/-! ## One step of a call -/

/-- What the successful last step of a call does to the processes. -/
inductive Changed (T : Tables) : Call → Tables → Prop where
  | dropping {current cap proc} : T.processes current = some proc →
      Changed T (.dropping current cap) (T.set current (proc.drop cap).1)
  | inserting {current dest c path room proc proc'} : T.processes dest = some proc →
      proc.receive room (.plain c) = some proc' →
        Changed T (.inserting current dest c path) (T.set dest proc')
  | moving {current dest cap room source destination destination'} : current ≠ dest →
      T.processes current = some source →
      T.processes dest = some destination → source.containsExact cap = true →
      destination.receive room cap = some destination' →
      Changed T (.moving current dest cap) ((T.set dest destination').set current (source.drop cap).1)
  | restricting {current cap restriction proc proc'} : T.processes current = some proc →
      proc.restrict cap restriction = .ok proc' →
        Changed T (.restricting current cap restriction) (T.set current proc')

theorem Tables.set_same {T : Tables} {pid : ProcessId} {proc : Process} (h : T.processes pid = some proc) :
    T.set pid proc = T := by
  rw [Tables.set, ← h, update_eq_self]

/-- **A step of a call changes the processes only if it is its last, and the call returns `SUCCESS`.** -/
theorem advance_cases {T T' : Tables} {room : Bool} {call : Call} {next : Call ⊕ Outcome}
    (h : call.advance T room = (T', next)) :
    T'.processes = T.processes ∧ (∃ names, T'.registry = T.registry ++ names) ∨
      next = .inr (.ok ()) ∧ Changed T call T' := by
  -- the tables stay
  have same : ∀ {x : Call ⊕ Outcome}, (T, x) = (T', next) →
      T'.processes = T.processes ∧ (∃ names, T'.registry = T.registry ++ names) ∨ next = .inr (.ok ()) ∧
        Changed T call T' := by
    rintro x ⟨⟩
    exact .inl ⟨rfl, [], (List.append_nil _).symm⟩
  cases call with (unfold Call.advance at h; dsimp only at h)
  | cloning current cap => exact same h
  | dropping current cap =>
    split at h
    · exact same h
    · rename_i proc hproc
      by_cases hr : (proc.drop cap).2 = true
      · obtain ⟨rfl, rfl⟩ := Prod.mk.inj h
        exact .inr ⟨by rw [if_pos hr], .dropping hproc⟩
      · rw [drop_of_false (by simpa using hr), Tables.set_same hproc] at h
        exact same h
  | managing current dest spec =>
    split at h
    · split at h <;> exact same h
    · exact same h
  | naming current dest text path | granting current dest c path | parsing current dest spec =>
    split at h <;> exact same h
  | interning current dest text path =>
    split at h
    · exact same h
    · split at h
      · exact same h
      · rename_i hreg
        obtain ⟨rfl, rfl⟩ := Prod.mk.inj h
        exact .inl ⟨rfl, intern_registry hreg⟩
  | inserting current dest c path =>
    split at h
    · exact same h
    · rename_i proc hproc
      split at h
      · exact same h
      · split at h
        · exact same h
        · rename_i proc' hproc'
          obtain ⟨rfl, rfl⟩ := Prod.mk.inj h
          exact .inr ⟨rfl, .inserting hproc hproc'⟩
  | checking current dest cap =>
    split at h
    · exact same h
    · split at h
      · exact same h
      · split at h <;> exact same h
  | delegating current dest c =>
    split at h
    · exact same h
    · split at h <;> exact same h
  | moving current dest cap =>
    split at h
    · exact same h
    · rename_i hne
      split at h
      · rename_i source destination hsource hdest
        split at h
        · exact same h
        · rename_i hexact
          split at h
          · exact same h
          · rename_i destination' hreceive
            obtain ⟨rfl, rfl⟩ := Prod.mk.inj h
            exact .inr ⟨rfl, .moving hne hsource hdest (by simpa using hexact) hreceive⟩
      · exact same h
  | restricting current cap restriction =>
    split at h
    · exact same h
    · rename_i proc hproc
      split at h
      · exact same h
      · rename_i proc' hproc'
        obtain ⟨rfl, rfl⟩ := Prod.mk.inj h
        exact .inr ⟨rfl, .restricting hproc hproc'⟩

section Held

variable {T T' : Tables} {call : Call} {pid pid' : ProcessId} {proc proc' : Process}

theorem remove_processes (h : (T.remove pid').processes pid = some proc) : T.processes pid = some proc := by
  have h : update T.processes pid' none pid = some proc := h
  rcases of_update_eq h with ⟨rfl, ⟨⟩⟩ | ⟨-, h⟩
  exact h

/-- Of the process table after an update: the process that was set, or one of before. -/
theorem set_cases (h : (T.set pid proc).processes pid' = some proc') :
    pid' = pid ∧ proc' = proc ∨ pid' ≠ pid ∧ T.processes pid' = some proc' := by
  have h : update T.processes pid (some proc) pid' = some proc' := h
  rcases of_update_eq h with ⟨rfl, ⟨⟩⟩ | hold
  · exact .inl ⟨rfl, rfl⟩
  · exact .inr hold

/-- Where the entries of a process come from: it had them, they were received, or they restrict one it had. -/
structure Origin (T : Tables) (call : Call) (pid : ProcessId) (proc : Process) : Prop where
  sorted : proc.capabilities.Sorted
  plain : ∀ c ∈ proc.capabilities.caps, T.holds pid c ∨
    (∃ current, call = .moving current pid (.plain c) ∧ T.holds current c) ∨
    (∃ current path, call = .inserting current pid c path) ∨
    ∃ d, call = .restricting pid (.plain d) (.plain c) ∧ T.holds pid d
  authority : ∀ a ∈ proc.kernelAuthorities.authorities, T.holdsAuthority pid a ∨
    (∃ current, call = .moving current pid (.authority a) ∧ T.holdsAuthority current a) ∨
    ∃ b, call = .restricting pid (.authority b) (.authority a) ∧ T.holdsAuthority pid b

/-- A process that is not touched. -/
theorem Origin.same (hT : T.Sorted) (h : T.processes pid = some proc) : Origin T call pid proc where
  sorted := hT pid proc h
  plain _ hc := .inl ⟨proc, h, hc⟩
  authority _ ha := .inl ⟨proc, h, ha⟩

theorem Origin.drop (hT : T.Sorted) {cap : CapabilityToken} (h : T.processes pid = some proc) :
    Origin T call pid (proc.drop cap).1 := by
  obtain ⟨hsort, hcaps, hauths⟩ := drop_ok cap (hT pid proc h)
  exact ⟨hsort, fun c hc => .inl ⟨proc, h, hcaps c hc⟩, fun a ha => .inl ⟨proc, h, hauths a ha⟩⟩

/-- **Where the holdings of a process come from.** -/
theorem Changed.origin (hT : T.Sorted) (h : Changed T call T') (hp : T'.processes pid = some proc') :
    Origin T call pid proc' := by
  cases h with
  | @dropping current cap proc hproc =>
    rcases set_cases hp with ⟨rfl, rfl⟩ | ⟨_, hp⟩
    · exact .drop hT hproc
    · exact .same hT hp
  | @inserting current dest c path room proc received hproc hreceive =>
    rcases set_cases hp with ⟨rfl, rfl⟩ | ⟨_, hp⟩
    · obtain ⟨hsort, hcaps, hauths⟩ := receive_ok (hT pid proc hproc) hreceive
      refine ⟨hsort, fun d hd => ?_, fun a ha => ?_⟩
      · rcases hcaps d hd with hd | heq
        · exact .inl ⟨proc, hproc, hd⟩
        · cases heq
          exact .inr (.inr (.inl ⟨current, path, rfl⟩))
      · rcases hauths a ha with ha | heq
        · exact .inl ⟨proc, hproc, ha⟩
        · cases heq
    · exact .same hT hp
  | @moving current dest cap room source destination received hne hsource hdest hexact hreceive =>
    rcases set_cases hp with ⟨rfl, rfl⟩ | ⟨_, hp⟩
    · exact .drop hT hsource
    · rcases set_cases hp with ⟨rfl, rfl⟩ | ⟨_, hp⟩
      · obtain ⟨hsort, hcaps, hauths⟩ := receive_ok (hT pid destination hdest) hreceive
        refine ⟨hsort, fun d hd => ?_, fun a ha => ?_⟩
        · rcases hcaps d hd with hd | rfl
          · exact .inl ⟨destination, hdest, hd⟩
          · exact .inr
              (.inl ⟨current, rfl, source, hsource,
              (containsExact_plain (hT current source hsource)).mp hexact⟩)
        · rcases hauths a ha with ha | rfl
          · exact .inl ⟨destination, hdest, ha⟩
          · exact .inr (.inl ⟨current, rfl, source, hsource, containsExact_authority.mp hexact⟩)
      · exact .same hT hp
  | @restricting current cap restriction proc restricted hproc hrestrict =>
    rcases set_cases hp with ⟨rfl, rfl⟩ | ⟨_, hp⟩
    · obtain ⟨hsort, hcaps, hauths⟩ := restrict_ok (hT pid proc hproc) hrestrict
      refine ⟨hsort, fun c hc => ?_, fun a ha => ?_⟩
      · rcases hcaps c hc with hc | ⟨rfl, d, hd, rfl⟩
        · exact .inl ⟨proc, hproc, hc⟩
        · exact .inr (.inr (.inr ⟨d, rfl, proc, hproc, hd⟩))
      · rcases hauths a ha with ha | ⟨rfl, b, hb, rfl⟩
        · exact .inl ⟨proc, hproc, ha⟩
        · exact .inr (.inr ⟨b, rfl, proc, hproc, hb⟩)
    · exact .same hT hp

end Held

/-! ## Calls under way -/

/-- What a call has established for its last step, if its caller does not manage capabilities. -/
def Call.Allowed (registry : List String) : Call → Prop
  | .naming .. | .interning .. | .granting .. | .inserting .. => False
  | .moving _ _ (.plain c) => c.isDelegable registry = true
  | .restricting _ (.plain c) (.plain r) => capabilityImplies c r = true
  | .restricting _ (.authority a) (.authority r) => kernelAuthorityImplies a r = true
  | .restricting .. => False
  | _ => True

theorem Call.Allowed.append {registry names : List String} {call : Call} (h : call.Allowed registry) :
    call.Allowed (registry ++ names) := by
  cases call with
  | moving current dest cap =>
    cases cap with
    | plain c => exact isDelegable_append h
    | authority a => exact trivial
  | restricting current cap restriction => cases cap <;> cases restriction <;> exact h
  | naming | interning | granting | inserting => exact h
  | _ => exact trivial

theorem start_allowed {registry : List String} {request : Request} {call : Call}
    (h : request.start registry = .ok call) : call.Allowed registry := by
  have hmap : ∀ {x : Except Error CapabilityToken} {f : CapabilityToken → Call}, x.map f = .ok call →
      ∃ cap, call = f cap := by
    intro x f hx
    cases x with
    | error e => cases hx
    | ok cap =>
      cases hx
      exact ⟨cap, rfl⟩
  cases request with
  | clone current spec | drop current spec =>
    cases current with
    | none => cases h
    | some current =>
      obtain ⟨cap, rfl⟩ := hmap h
      exact trivial
  | transfer current spec dest =>
    cases current with
    | none => cases h
    | some current =>
      cases spec with
      | error e => cases h
      | ok spec =>
        cases dest with
        | none => cases h
        | some dest =>
          cases h
          exact trivial
  | restrict current spec restriction =>
    cases current with
    | none => cases h
    | some current =>
      simp only [Request.start] at h
      split at h
      · cases h
      · cases h
      · split at h
        · cases h
          assumption
        · cases h
      · split at h
        · cases h
          assumption
        · cases h
      · cases h

/-- A call that goes on is still allowed. -/
theorem advance_allowed {T T' : Tables} {room : Bool} {call next : Call} (ha : call.Allowed T.registry)
    (hmanage : T.hasCapability call.current .capabilitiesManage = false)
    (h : call.advance T room = (T', .inl next)) : next.Allowed T'.registry := by
  cases call with (unfold Call.advance at h; dsimp only at h)
  | cloning | naming | interning | granting | inserting => cases ha <;> cases h
  | dropping current cap =>
    split at h <;> cases h
  | managing current dest spec =>
    have hmanage : T.hasCapability current .capabilitiesManage = false := hmanage
    rw [hmanage, if_neg Bool.false_ne_true] at h
    cases h
    exact trivial
  | parsing current dest spec =>
    split at h
    · cases h
    cases h
    exact trivial
  | checking current dest cap =>
    split at h
    · cases h
    split at h
    · cases h
      exact trivial
    · split at h
      · cases h
      · cases h
        exact trivial
  | delegating current dest c =>
    split at h
    · cases h
    rename_i hdel
    split at h
    · cases h
    cases h
    simpa [Call.Allowed] using hdel
  | moving current dest cap =>
    split at h
    · cases h
    split at h
    · split at h
      · cases h
      · split at h <;> cases h
    · cases h
  | restricting current cap restriction =>
    split at h
    · cases h
    · split at h <;> cases h

/-! ## Runs keep what is implied -/

section Steps

variable {T : Tables} {s s' : State} {l : Label}

theorem Changed.registry {T' : Tables} {call : Call} (h : Changed T call T') : T'.registry = T.registry := by
  cases h <;> rfl

/-- **What a step does to the tables.** -/
theorem step_tables (h : step s l = some s') :
    s'.tables.processes = s.tables.processes ∧ (∃ names, s'.tables.registry = s.tables.registry ++ names) ∨
    (∃ pid, l = .exit pid ∧ s'.tables = s.tables.remove pid) ∨
    ∃ t room call, l = .advance t room ∧ s.calls t = some call ∧ s'.calls t = none ∧
      s'.outcomes t = some (.ok ()) ∧ Changed s.tables call s'.tables := by
  have hnil : ∃ names, s.tables.registry = s.tables.registry ++ names := ⟨[], (List.append_nil _).symm⟩
  cases l with (unfold step at h; dsimp only at h)
  | request t request =>
    split at h
    · cases h
    · split at h <;> cases h <;> exact .inl ⟨rfl, hnil⟩
  | advance t room =>
    split at h
    · cases h
    rename_i call hcall
    split at h
    · rename_i tables next hadv
      cases h
      rcases advance_cases hadv with hsame | ⟨hnext, _⟩
      · exact .inl hsame
      · cases hnext
    · rename_i tables outcome hadv
      cases h
      rcases advance_cases hadv with hsame | ⟨hnext, hchanged⟩
      · exact .inl hsame
      · cases hnext
        exact .inr (.inr ⟨t, room, call, rfl, hcall, update_self .., update_self .., hchanged⟩)
  | intern name room =>
    split at h
    · cases h
      exact .inl ⟨rfl, hnil⟩
    rename_i hreg
    cases h
    exact .inl ⟨rfl, intern_registry hreg⟩
  | exit pid =>
    cases h
    exact .inr (.inl ⟨pid, rfl, rfl⟩)

theorem step_registry (h : step s l = some s') :
    ∃ names, s'.tables.registry = s.tables.registry ++ names := by
  rcases step_tables h with ⟨_, hreg⟩ | ⟨pid, _, heq⟩ | ⟨t, room, call, _, _, _, _, hchanged⟩
  · exact hreg
  · exact ⟨[], by rw [heq, List.append_nil]; rfl⟩
  · exact ⟨[], by rw [hchanged.registry, List.append_nil]⟩

/-- The calls of a state, all of them allowed. -/
def State.Allowed (s : State) : Prop := ∀ t call, s.calls t = some call → call.Allowed s.tables.registry

/-- A step that leaves all calls but one as they are. -/
theorem State.Allowed.put (hs : s.Allowed) (hreg : ∃ names, s'.tables.registry = s.tables.registry ++ names)
    {t : ThreadId} {v : Option Call} (hcalls : s'.calls = update s.calls t v)
    (hv : ∀ call, v = some call → call.Allowed s'.tables.registry) : s'.Allowed := by
  intro u call hcall
  rw [hcalls] at hcall
  rcases of_update_eq hcall with ⟨rfl, hset⟩ | ⟨-, hcall⟩
  · exact hv call hset
  · obtain ⟨names, hreg⟩ := hreg
    rw [hreg]
    exact (hs u call hcall).append

theorem step_calls (hs : s.Allowed) (hok : unmanaged s l = true) (h : step s l = some s') : s'.Allowed := by
  have hreg := step_registry h
  have hsame : s'.calls = s.calls → s'.Allowed := by
    intro heq t call hcall
    obtain ⟨names, hreg⟩ := hreg
    rw [heq] at hcall
    rw [hreg]
    exact (hs t call hcall).append
  cases l with (unfold step at h; dsimp only at h)
  | request t request =>
    split at h
    · cases h
    split at h
    · cases h
      exact hsame rfl
    · rename_i call hstart
      cases h
      refine hs.put hreg rfl ?_
      rintro _ ⟨⟩
      exact start_allowed hstart
  | advance t room =>
    split at h
    · cases h
    rename_i call hcall
    split at h
    · rename_i tables next hadv
      cases h
      refine hs.put hreg rfl ?_
      rintro _ ⟨⟩
      have hmanage : s.tables.hasCapability call.current .capabilitiesManage = false := by
        simpa [unmanaged, hcall] using hok
      exact advance_allowed (hs t call hcall) hmanage hadv
    · cases h
      refine hs.put hreg rfl ?_
      rintro _ ⟨⟩
  | intern name room =>
    split at h <;> cases h <;> exact hsame rfl
  | exit pid =>
    cases h
    exact hsame rfl

/-- The processes of after are from before, or a call ends. -/
theorem step_processes (h : step s l = some s') :
    (∀ pid proc, s'.tables.processes pid = some proc → s.tables.processes pid = some proc) ∨
    ∃ t room call, l = .advance t room ∧ s.calls t = some call ∧ Changed s.tables call s'.tables := by
  rcases step_tables h with ⟨hsame, _⟩ | ⟨pid, _, heq⟩ | ⟨t, room, call, hl, hcall, _, _, hchanged⟩
  · exact .inl fun pid proc hp => hsame ▸ hp
  · exact .inl fun pid' proc hp => remove_processes (heq ▸ hp)
  · exact .inr ⟨t, room, call, hl, hcall, hchanged⟩

variable (hT : s.tables.Sorted) (hs : s.Allowed) (h : step s l = some s')
include hT hs h

/-- What a process holds after a step was held or implied by what someone held before. -/
theorem step_holds : s'.tables.Sorted ∧
    (∀ pid c, s'.tables.holds pid c → (∃ pid, s.tables.holds pid c) ∨
      Implied (fun a b => capabilityImplies a b = true) s.tables.holds c) ∧
    ∀ pid a, s'.tables.holdsAuthority pid a → (∃ pid, s.tables.holdsAuthority pid a) ∨
      Implied (fun a b => kernelAuthorityImplies a b = true) s.tables.holdsAuthority a := by
  rcases step_processes h with hbefore | ⟨t, room, call, rfl, hcall, hchanged⟩
  · refine ⟨fun pid proc hp => hT pid proc (hbefore _ _ hp), ?_, ?_⟩
    · rintro pid c ⟨proc, hp, hc⟩
      exact .inl ⟨pid, proc, hbefore _ _ hp, hc⟩
    · rintro pid a ⟨proc, hp, ha⟩
      exact .inl ⟨pid, proc, hbefore _ _ hp, ha⟩
  · have hallowed : call.Allowed s.tables.registry := hs t call hcall
    refine ⟨fun pid proc hp => (hchanged.origin hT hp).sorted, ?_, ?_⟩
    · rintro pid c ⟨proc, hp, hc⟩
      rcases (hchanged.origin hT hp).plain c hc with h0 | ⟨current, _, h0⟩
        | ⟨current, path, rfl⟩ | ⟨d, rfl, h0⟩
      · exact .inl ⟨pid, h0⟩
      · exact .inl ⟨current, h0⟩
      · exact hallowed.elim
      · exact .inr ⟨pid, d, h0, hallowed⟩
    · rintro pid a ⟨proc, hp, ha⟩
      rcases (hchanged.origin hT hp).authority a ha with h0 | ⟨current, _, h0⟩ | ⟨b, rfl, h0⟩
      · exact .inl ⟨pid, h0⟩
      · exact .inl ⟨current, h0⟩
      · exact .inr ⟨pid, b, h0, hallowed⟩

theorem step_capable {c : Capability} (hc : s'.tables.Capable c) : s.tables.Capable c := by
  rw [capable_iff] at hc ⊢
  exact hc.mono (fun a b c => @capabilityImplies_trans a b c) (step_holds hT hs h).2.1

theorem step_authorized {a : KernelAuthority} (ha : s'.tables.Authorized a) : s.tables.Authorized a := by
  rw [authorized_iff] at ha ⊢
  exact ha.mono (fun a b c => @kernelAuthorityImplies_trans a b c) (step_holds hT hs h).2.2

end Steps

/-- What holds in every state of a run from the tables `T`. -/
structure Inv (T : Tables) (s : State) : Prop where
  sorted : s.tables.Sorted
  allowed : s.Allowed
  capable : ∀ c, s.tables.Capable c → T.Capable c
  authorized : ∀ a, s.tables.Authorized a → T.Authorized a

/-- **The invariant holds in every run without managers.** -/
theorem inv_reach {T : Tables} (hT : T.Sorted) {s : State}
    (h : (machine T).Reach (fun s l => unmanaged s l = true) s) : Inv T s := by
  refine System.Reach.invariant ?_ ?_ h
  · rintro s rfl
    refine ⟨hT, ?_, fun _ => id, fun _ => id⟩
    rintro t call ⟨⟩
  · intro s l s' hI hok hs
    exact {
      sorted := (step_holds hI.sorted hI.allowed hs).1
      allowed := step_calls hI.allowed hok hs
      capable := fun c hc => hI.capable c (step_capable hI.sorted hI.allowed hs hc)
      authorized := fun a ha => hI.authorized a (step_authorized hI.sorted hI.allowed hs ha) }

/-! ## Conservation -/

/-- The calls of `transfer_capability`. -/
def Call.isTransfer : Call → Bool
  | .managing .. | .naming .. | .interning .. | .granting .. | .inserting .. | .parsing .. | .checking ..
  | .delegating .. | .moving .. => true
  | _ => false

/-- What a step may do. -/
structure Conserves (s : State) (l : Label) (s' : State) : Prop where
  capable : ∀ c, s'.tables.Capable c → s.tables.Capable c
  authorized : ∀ a, s'.tables.Authorized a → s.tables.Authorized a
  /-- What a process gains through a transfer is delegable. -/
  delegable : ∀ t room call pid c, l = .advance t room → s.calls t = some call → call.isTransfer = true →
    s'.tables.holds pid c → s.tables.holds pid c ∨ c.isDelegable s'.tables.registry = true
  /-- What a process comes to imply it has from a transfer, and it is delegable. -/
  gained : ∀ pid c, s'.tables.hasCapability pid c = true → s.tables.hasCapability pid c = true ∨
    c.isDelegable s'.tables.registry = true ∧ ∃ t room call, l = .advance t room ∧ s.calls t = some call ∧
      call.isTransfer = true
  /-- The processes change when one leaves, or in the last step of a call that returns `SUCCESS`. -/
  changed : s'.tables.processes ≠ s.tables.processes → (∃ pid, l = .exit pid) ∨
    ∃ t room, l = .advance t room ∧ (s.calls t).isSome = true ∧ s'.calls t = none ∧
      s'.outcomes t = some (.ok ())

theorem has_of_holds {T : Tables} {pid : ProcessId} {c d : Capability} (h : T.holds pid c)
    (hcd : capabilityImplies c d = true) : T.hasCapability pid d = true := by
  obtain ⟨proc, hp, hc⟩ := h
  exact (Option.any_eq_true _ _).mpr ⟨proc, hp, CapabilitySet.implies_iff.mpr ⟨c, hc, hcd⟩⟩

theorem holds_of_has {T : Tables} {pid : ProcessId} {d : Capability} (h : T.hasCapability pid d = true) :
    ∃ c, T.holds pid c ∧ capabilityImplies c d = true := by
  obtain ⟨proc, hp, himp⟩ := (Option.any_eq_true _ _).mp h
  obtain ⟨c, hc, hcd⟩ := CapabilitySet.implies_iff.mp himp
  exact ⟨c, ⟨proc, hp, hc⟩, hcd⟩

section Gain

variable {s s' : State} {l : Label}

/-- Where what a process holds after a step comes from. -/
theorem step_gain (hT : s.tables.Sorted) (hs : s.Allowed) (h : step s l = some s')
    {pid : ProcessId} {c : Capability} (hc : s'.tables.holds pid c) : s.tables.holds pid c ∨
      ∃ t room call, l = .advance t room ∧ s.calls t = some call ∧
        (call.isTransfer = true ∧ c.isDelegable s'.tables.registry = true ∨
          call.isTransfer = false ∧ ∃ d, s.tables.holds pid d ∧ capabilityImplies d c = true) := by
  obtain ⟨proc, hp, hc⟩ := hc
  rcases step_processes h with hbefore | ⟨t, room, call, rfl, hcall, hchanged⟩
  · exact .inl ⟨proc, hbefore _ _ hp, hc⟩
  · have hallowed : call.Allowed s.tables.registry := hs t call hcall
    rcases (hchanged.origin hT hp).plain c hc with h0 | ⟨current, rfl, _⟩
      | ⟨current, path, rfl⟩ | ⟨d, rfl, h0⟩
    · exact .inl h0
    · exact .inr ⟨t, room, _, rfl, hcall, .inl ⟨rfl, by rw [hchanged.registry]; exact hallowed⟩⟩
    · exact hallowed.elim
    · exact .inr ⟨t, room, _, rfl, hcall, .inr ⟨rfl, d, h0, hallowed⟩⟩

theorem Inv.conserves {T : Tables} (hI : Inv T s) (h : step s l = some s') : Conserves s l s' where
  capable _ := step_capable hI.sorted hI.allowed h
  authorized _ := step_authorized hI.sorted hI.allowed h
  delegable t room call pid c hl hcall htransfer hc := by
    rcases step_gain hI.sorted hI.allowed h hc with h0 | ⟨t', room', call', hl', hcall', hcase⟩
    · exact .inl h0
    · rw [hl] at hl'
      cases hl'
      rw [hcall] at hcall'
      cases hcall'
      rcases hcase with ⟨_, hdel⟩ | ⟨hnot, _⟩
      · exact .inr hdel
      · rw [htransfer] at hnot
        cases hnot
  gained pid c hc := by
    obtain ⟨d, hd, hdc⟩ := holds_of_has hc
    rcases step_gain hI.sorted hI.allowed h hd with h0
      | ⟨t, room, call, hl, hcall, ⟨htransfer, hdel⟩ | ⟨_, e, he, hed⟩⟩
    · exact .inl (has_of_holds h0 hdc)
    · -- what is delegable implies nothing else
      cases eq_of_delegable hdel hdc
      exact .inr ⟨hdel, t, room, call, hl, hcall, htransfer⟩
    · exact .inl (has_of_holds he (capabilityImplies_trans hed hdc))
  changed hne := by
    rcases step_tables h with ⟨hsame, _⟩ | ⟨pid, hl, _⟩ | ⟨t, room, call, hl, hcall, hnone, hout, _⟩
    · exact absurd hsame hne
    · exact .inl ⟨pid, hl⟩
    · exact .inr ⟨t, room, hl, by rw [hcall]; rfl, hnone, hout⟩

end Gain

/-- **Conservation.** Whatever calls processes make that do not manage capabilities: the lists stay sorted
    without duplicates, what all processes together imply never grows, what a process gains through a transfer
    is delegable, and a call that returns an error changes no process. -/
theorem capability_conservation {T : Tables} (hT : T.Sorted) {s : State}
    (h : (machine T).Reach (fun s l => unmanaged s l = true) s) :
    s.tables.Sorted ∧ (∀ c, s.tables.Capable c → T.Capable c) ∧
      (∀ a, s.tables.Authorized a → T.Authorized a) ∧
      ∀ l s', unmanaged s l = true → (machine T).step s l = some s' → Conserves s l s' := by
  have hI : Inv T s := inv_reach hT h
  exact ⟨hI.sorted, hI.capable, hI.authorized, fun l s' _ hs => hI.conserves hs⟩

/-- Two processes, the first of which may read temporary and removable files and owns a range of addresses. -/
def twoProcesses : Tables where
  processes pid :=
    if pid = 1 then some ⟨⟨[.fsReadTmp, .fsReadRemovable]⟩, ⟨[⟨.physMap, .mmioRegion 0x1000 0x2000⟩]⟩, "a"⟩
    else if pid = 2 then some ⟨⟨[]⟩, ⟨[]⟩, "b"⟩
    else none
  registry := []

theorem twoProcesses_sorted : twoProcesses.Sorted := by
  intro pid proc h
  simp only [twoProcesses] at h
  split at h
  · cases h
    decide
  · split at h
    · cases h
      decide
    · cases h

/-- Process 1 hands one of its capabilities to process 2, and one page of its range after narrowing it. -/
theorem capability_conservation_handed : ∃ s : State,
    (machine twoProcesses).Reach (fun s l => unmanaged s l = true) s ∧
      s.tables.processes 1 = some ⟨⟨[.fsReadTmp]⟩, ⟨[]⟩, "a"⟩ ∧
      s.tables.processes 2 = some ⟨⟨[.fsReadRemovable]⟩, ⟨[⟨.physMap, .mmioRegion 0x2000 0x1000⟩]⟩, "b"⟩ ∧
      s.tables.Sorted ∧ (∀ c, s.tables.Capable c → twoProcesses.Capable c) ∧
      (∀ a, s.tables.Authorized a → twoProcesses.Authorized a) ∧
      ∀ l s', unmanaged s l = true → (machine twoProcesses).step s l = some s' → Conserves s l s' := by
  obtain ⟨s, hs, hp⟩ := System.reach_of_exec (machine twoProcesses) unmanaged
    ⟨twoProcesses, fun _ => none, fun _ => none⟩
    [.request 0 (.transfer (some 1) (.ok ⟨.name "fs.read.removable", none⟩) (some 2)),
      .advance 0 true, .advance 0 true, .advance 0 true, .advance 0 true, .advance 0 true,
      .request 0 (.restrict (some 1) (.ok ⟨.authority ⟨.physMap, .mmioRegion 0x1000 0x2000⟩, none⟩)
        (.ok ⟨.authority ⟨.physMap, .mmioRegion 0x2000 0x1000⟩, none⟩)), .advance 0 true,
      .request 0 (.transfer (some 1) (.ok ⟨.authority ⟨.physMap, .mmioRegion 0x2000 0x1000⟩, none⟩) (some 2)),
      .advance 0 true, .advance 0 true, .advance 0 true, .advance 0 true]
    (fun s => s.tables.processes 1 = some ⟨⟨[.fsReadTmp]⟩, ⟨[]⟩, "a"⟩ ∧
      s.tables.processes 2 = some ⟨⟨[.fsReadRemovable]⟩, ⟨[⟨.physMap, .mmioRegion 0x2000 0x1000⟩]⟩, "b"⟩)
    rfl (by decide +kernel)
  exact ⟨s, hs, hp.1, hp.2, capability_conservation twoProcesses_sorted hs⟩

end Mnu.Syscall.Capability
