import Mnu.Lib.SortedList

/-!
# `Mnu.Capability.Set` — capabilities, authorities, and the sets of a process

`src/capability/mod.rs`, with the table of `crates/abi/src/capability.rs`. A capability implies others by a
fixed relation; an authority ties a kernel capability to an object, and one over a range of addresses implies
those inside it. Both relations are transitive, which is what makes restricting safe. Neither is reflexive for
authorities: a range that wraps around implies nothing.

The capabilities of a process are a sorted list, with `binary_search` for every operation; its authorities are
a list in the order of insertion.
-/

namespace Mnu.Capabilities

open Mnu.Lib

/-! ## Capabilities -/

/-- A capability, built in or registered. -/
inductive Capability where
  | fsReadTmp
  | fsWriteTmp
  | fsReadRemovable
  | fsWriteRemovable
  | fsReadAll
  | fsWriteAll
  | ipcClient
  | ipcServer
  | processSpawn
  | processInspect
  | processKill
  | displayRead
  | usbAccess
  | serialAccess
  | systemTimeRead
  | systemRandomRead
  | serviceRegister
  | dmaAllocate
  | memoryPhysMap
  | memoryPhysTranslate
  | kernelDebug
  | diagnosticsRead
  | deviceGpu
  | deviceInput
  | deviceStorage
  | deviceNet
  | capabilitiesManage
  | unsandboxed
  | developerProfile
  | signatureRead
  | signatureWrite
  | dynamic (id : UInt32)
  deriving DecidableEq, Repr

/-- The derived order: as declared, the dynamic ones last. -/
def Capability.rank : Capability → Nat
  | .fsReadTmp => 0
  | .fsWriteTmp => 1
  | .fsReadRemovable => 2
  | .fsWriteRemovable => 3
  | .fsReadAll => 4
  | .fsWriteAll => 5
  | .ipcClient => 6
  | .ipcServer => 7
  | .processSpawn => 8
  | .processInspect => 9
  | .processKill => 10
  | .displayRead => 11
  | .usbAccess => 12
  | .serialAccess => 13
  | .systemTimeRead => 14
  | .systemRandomRead => 15
  | .serviceRegister => 16
  | .dmaAllocate => 17
  | .memoryPhysMap => 18
  | .memoryPhysTranslate => 19
  | .kernelDebug => 20
  | .diagnosticsRead => 21
  | .deviceGpu => 22
  | .deviceInput => 23
  | .deviceStorage => 24
  | .deviceNet => 25
  | .capabilitiesManage => 26
  | .unsandboxed => 27
  | .developerProfile => 28
  | .signatureRead => 29
  | .signatureWrite => 30
  | .dynamic id => 31 + id.toNat

/-- The name of a built-in capability. -/
def Capability.builtinName : Capability → Option String
  | .fsReadTmp => some "fs.read.tmp"
  | .fsWriteTmp => some "fs.write.tmp"
  | .fsReadRemovable => some "fs.read.removable"
  | .fsWriteRemovable => some "fs.write.removable"
  | .fsReadAll => some "fs.read.all"
  | .fsWriteAll => some "fs.write.all"
  | .ipcClient => some "ipc.client"
  | .ipcServer => some "ipc.server"
  | .processSpawn => some "process.spawn"
  | .processInspect => some "process.inspect"
  | .processKill => some "process.kill"
  | .displayRead => some "display.read"
  | .usbAccess => some "usb.access"
  | .serialAccess => some "serial.access"
  | .systemTimeRead => some "system.time.read"
  | .systemRandomRead => some "system.random.read"
  | .serviceRegister => some "service.register"
  | .dmaAllocate => some "dma.allocate"
  | .memoryPhysMap => some "memory.phys.map"
  | .memoryPhysTranslate => some "memory.phys.translate"
  | .kernelDebug => some "kernel.debug"
  | .diagnosticsRead => some "diagnostics.read"
  | .deviceGpu => some "device.gpu"
  | .deviceInput => some "device.input"
  | .deviceStorage => some "device.storage"
  | .deviceNet => some "device.net"
  | .capabilitiesManage => some "capabilities.manage"
  | .unsandboxed => some "unsandboxed"
  | .developerProfile => some "developer.profile"
  | .signatureRead => some "signature.db.read"
  | .signatureWrite => some "signature.db.write"
  | .dynamic _ => none

/-- Who may be given a capability. -/
inductive Classification where
  | userGrantable
  | privileged
  | systemOnly
  deriving DecidableEq, Repr

/-- Only what users can grant is delegable. -/
def Classification.delegable (c : Classification) : Bool := c = .userGrantable

/-- `CAPABILITIES` -/
def capabilities : List (String × Classification) := [
  ("fs.read.user.documents", .userGrantable), ("fs.write.user.documents", .userGrantable),
  ("fs.read.user.downloads", .userGrantable), ("fs.write.user.downloads", .userGrantable),
  ("fs.read.user.desktop", .userGrantable), ("fs.write.user.desktop", .userGrantable),
  ("fs.read.user.pictures", .userGrantable), ("fs.write.user.pictures", .userGrantable),
  ("fs.read.user.music", .userGrantable), ("fs.write.user.music", .userGrantable),
  ("fs.read.user.videos", .userGrantable), ("fs.write.user.videos", .userGrantable),
  ("fs.read.user", .userGrantable),
  ("fs.write.user", .userGrantable), ("fs.read.tmp", .userGrantable), ("fs.write.tmp", .userGrantable),
  ("fs.read.removable", .userGrantable), ("fs.write.removable", .userGrantable),
  ("fs.read.applications", .systemOnly), ("fs.read.all", .privileged), ("fs.write.all", .privileged),
  ("net.connect", .userGrantable), ("net.listen", .userGrantable), ("net.raw", .privileged),
  ("net.tls.connect", .userGrantable), ("net.http.request", .userGrantable), ("ipc.client", .systemOnly),
  ("ipc.server", .systemOnly), ("process.spawn", .systemOnly), ("process.inspect", .systemOnly),
  ("process.kill", .systemOnly), ("window.create", .userGrantable), ("window.overlay", .userGrantable),
  ("window.modal.control", .systemOnly), ("window.secure-overlay", .systemOnly),
  ("window.decorate", .privileged),
  ("window.capture", .privileged), ("display.read", .userGrantable), ("display.capture", .privileged),
  ("input.keyboard", .userGrantable), ("input.keyboard.global", .privileged),
  ("input.pointer", .userGrantable),
  ("input.pointer.global", .privileged), ("input.gamepad", .privileged), ("audio.playback", .userGrantable),
  ("audio.record", .userGrantable), ("clipboard.read", .userGrantable), ("clipboard.write", .userGrantable),
  ("control-center.read", .systemOnly), ("control-center.register", .userGrantable),
  ("file-association.read", .systemOnly), ("file-association.write", .userGrantable),
  ("notification.send", .userGrantable), ("keychain.access", .userGrantable),
  ("keychain.manage", .systemOnly),
  ("keychain.session", .systemOnly), ("keychain.authentication", .systemOnly), ("camera.access", .privileged),
  ("microphone.access", .privileged), ("location.access", .privileged), ("bluetooth.access", .privileged),
  ("usb.access", .privileged), ("serial.access", .privileged), ("power.shutdown", .privileged),
  ("power.reboot", .privileged), ("power.suspend", .privileged), ("system.time.read", .userGrantable),
  ("system.random.read", .systemOnly), ("system.time.set", .privileged), ("system.info.read", .userGrantable),
  ("system.logs.read", .userGrantable), ("package.inspect", .privileged), ("package.install", .privileged),
  ("package.remove", .privileged), ("package.update", .privileged), ("service.register", .privileged),
  ("service.control", .privileged), ("vm.create", .privileged), ("vm.control", .privileged),
  ("dma.allocate", .systemOnly), ("memory.phys.map", .systemOnly), ("memory.phys.translate", .systemOnly),
  ("kernel.module.load", .systemOnly), ("kernel.debug", .systemOnly), ("diagnostics.read", .systemOnly),
  ("device.gpu", .privileged), ("device.audio", .privileged), ("device.input", .privileged),
  ("device.storage", .privileged), ("device.storage.scoped", .privileged),
  ("device.storage.scoped.write", .privileged), ("device.net", .privileged),
  ("account.self.read", .userGrantable),
  ("account.self.modify", .userGrantable), ("account.authenticate", .privileged),
  ("account.other.read", .privileged),
  ("account.other.modify", .privileged), ("settings.read", .userGrantable), ("settings.write", .privileged),
  ("capabilities.manage", .systemOnly), ("unsandboxed", .systemOnly), ("developer.debug", .systemOnly),
  ("developer.profile", .systemOnly), ("developer.tracing", .systemOnly), ("signature.db.read", .systemOnly),
  ("signature.db.write", .systemOnly)]

/-- `metadata` -/
def metadata (name : String) : Option Classification :=
  (capabilities.find? fun entry => entry.1 = name).map Prod.snd

/-- `is_delegable`. The names of dynamic capabilities are in `registry`. -/
def Capability.isDelegable (registry : List String) (c : Capability) : Bool :=
  match c.builtinName, c with
  | some name, _ => (metadata name).any Classification.delegable
  | none, .dynamic id => (registry[id.toNat]?).any fun name => (metadata name).any Classification.delegable
  | none, _ => false

/-! ### Names -/

/-- `bootstrap_capabilities` -/
def bootstrapCapabilities : List Capability :=
  [.fsReadTmp, .fsWriteTmp, .fsReadRemovable, .fsWriteRemovable, .fsReadAll,
    .fsWriteAll, .ipcClient, .ipcServer,
  .processSpawn, .processInspect, .processKill, .displayRead, .usbAccess, .serialAccess, .systemTimeRead,
  .systemRandomRead, .serviceRegister, .dmaAllocate, .memoryPhysMap, .memoryPhysTranslate, .kernelDebug,
  .diagnosticsRead, .deviceGpu, .deviceInput, .deviceStorage, .deviceNet, .capabilitiesManage, .unsandboxed,
  .developerProfile, .signatureRead, .signatureWrite]

/-- `valid_capability_name`, on the characters: a name with others than these is refused whatever its bytes.
    -/
def validCapabilityName (name : String) : Bool :=
  let chars := name.toList
  let endpointIsValid := fun (c : Char) => c.isLower || c.isDigit
  !chars.isEmpty && chars.length ≤ 512 && chars.head?.any endpointIsValid &&
    chars.getLast?.any endpointIsValid &&
    !(chars.zip chars.tail).any (fun pair => pair = ('.', '.')) &&
    chars.all fun c => c.isLower || c.isDigit || c = '.' || c = '_' || c = '-'

/-- `builtin_capability`. -/
def builtinCapability (name : String) : Option Capability :=
  bootstrapCapabilities.find? fun c => c.builtinName = some name

/-- `lookup_dynamic_capability`: a registered name. -/
def lookupDynamicCapability (registry : List String) (name : String) : Option Capability :=
  if validCapabilityName name then (registry.findIdx? (· = name)).map fun id =>
    .dynamic (UInt32.ofNat id) else none

/-- `Capability::from_str` -/
def Capability.fromStr (registry : List String) (name : String) : Option Capability :=
  (builtinCapability name).or (lookupDynamicCapability registry name)

/-- `MAX_DYNAMIC_CAPABILITIES` -/
def maxDynamicCapabilities : Nat := 4096

/-- `intern_dynamic_capability`, where the storage is reserved if there is `room`. -/
def internDynamicCapability (registry : List String) (name : String) (room : Bool) :
    Option (List String × Capability) :=
  match registry.findIdx? (· = name) with
  | some id => some (registry, .dynamic (UInt32.ofNat id))
  | none =>
    if maxDynamicCapabilities ≤ registry.length then none
    else if room then some (registry ++ [name], .dynamic (UInt32.ofNat registry.length))
    else none

/-- `Capability::intern` -/
def Capability.intern (registry : List String) (name : String) (room : Bool) :
    Option (List String × Capability) :=
  if !validCapabilityName name then none
  else
    match builtinCapability name with
    | some c => some (registry, c)
    | none => internDynamicCapability registry name room

/-- `capability_implies` -/
def capabilityImplies (parent child : Capability) : Bool :=
  if parent = child then true
  else
    match parent with
    | .unsandboxed => true
    | .fsReadAll => child = .fsReadTmp || child = .fsReadRemovable
    | .fsWriteAll => child = .fsWriteTmp || child = .fsWriteRemovable
    | _ => false

/-! ## Authorities -/

/-- What may be done to a kernel object. -/
inductive KernelCapability where
  | processKill
  | processSpawn
  | ipcEndpointCreate
  | ipcEndpointSend
  | ipcEndpointRecv
  | vmMap
  | vmUnmap
  | mmioMap
  | dmaAllocate
  | physMap
  | physTranslate
  | irqBind
  | cextLoad
  | cextStop
  | deviceClaim
  | kernelDebug
  | diagnosticsRead
  | signatureWrite
  | signatureRead
  deriving DecidableEq, Repr

/-- A kernel object. -/
inductive KernelObjectRef where
  | process (id : UInt64)
  | thread (id : UInt64)
  | ipcEndpoint (id : UInt64)
  | vmObject (id : UInt64)
  | mmioRegion (base size : UInt64)
  | irqLine (line : UInt32)
  | cextInstance (id : UInt64)
  | deviceHandle (id : UInt64)
  deriving DecidableEq, Repr

/-- A capability for one object. -/
structure KernelAuthority where
  capability : KernelCapability
  object : KernelObjectRef
  deriving DecidableEq, Repr

/-- `checked_add` -/
def checkedAdd (a b : UInt64) : Option Nat :=
  if a.toNat + b.toNat < 2 ^ 64 then some (a.toNat + b.toNat) else none

/-- `kernel_authority_implies` -/
def kernelAuthorityImplies (parent child : KernelAuthority) : Bool :=
  if parent.capability ≠ child.capability then false
  else
    match parent.object, child.object with
    | .mmioRegion parentBase parentSize, .mmioRegion childBase childSize =>
      match checkedAdd parentBase parentSize, checkedAdd childBase childSize with
      | some parentEnd, some childEnd => parentBase ≤ childBase && childEnd ≤ parentEnd
      | _, _ => false
    | parentObject, childObject => parentObject = childObject

/-! ## Implication -/

/-- The capability of a rank. -/
def Capability.ofRank (n : Nat) : Capability :=
  bootstrapCapabilities[n]?.getD (.dynamic (UInt32.ofNat (n - 31)))

theorem Capability.ofRank_rank (c : Capability) : Capability.ofRank c.rank = c := by
  cases c with
  | dynamic id =>
    have hlen : bootstrapCapabilities[31 + id.toNat]? = none := List.getElem?_eq_none (Nat.le_add_right 31 _)
    rw [Capability.rank, Capability.ofRank, hlen, Nat.add_sub_cancel_left]
    exact congrArg Capability.dynamic (UInt32.ofNat_toNat)
  | _ => rfl

theorem Capability.rank_injective : Function.Injective Capability.rank :=
  Function.LeftInverse.injective Capability.ofRank_rank

instance : LinearOrder Capability := LinearOrder.lift' Capability.rank Capability.rank_injective

theorem capabilityImplies_refl (c : Capability) : capabilityImplies c c = true := if_pos rfl

/-- Implication is transitive. -/
theorem capabilityImplies_trans {a b c : Capability} (hab : capabilityImplies a b = true)
    (hbc : capabilityImplies b c = true) : capabilityImplies a c = true := by
  by_cases heq : a = b
  · rw [heq]
    exact hbc
  · -- `a` is one of the three that imply others, and what they imply implies nothing else
    by_cases hac : a = c
    · rw [hac]
      exact capabilityImplies_refl c
    · cases a <;> simp_all [capabilityImplies] <;> rcases hab with rfl | rfl <;> simp_all

/-- What is delegable implies nothing but itself. -/
theorem eq_of_delegable {registry : List String} {c d : Capability} (hc : c.isDelegable registry = true)
    (h : capabilityImplies c d = true) : c = d := by
  by_contra hne
  have hcase : c = .unsandboxed ∨ c = .fsReadAll ∨ c = .fsWriteAll := by
    cases c <;> simp_all [capabilityImplies]
  rcases hcase with rfl | rfl | rfl
  · exact Bool.noConfusion
      (hc.symm.trans (show (metadata "unsandboxed").any Classification.delegable = false by decide))
  · exact Bool.noConfusion
      (hc.symm.trans (show (metadata "fs.read.all").any Classification.delegable = false by decide))
  · exact Bool.noConfusion
      (hc.symm.trans (show (metadata "fs.write.all").any Classification.delegable = false by decide))

/-- A registry only ever grows at its end. -/
theorem intern_registry {registry registry' : List String} {name : String} {room : Bool} {c : Capability}
    (h : Capability.intern registry name room = some (registry', c)) :
    ∃ names, registry' = registry ++ names := by
  rw [Capability.intern] at h
  split at h
  · cases h
  split at h
  · cases h
    exact ⟨[], (List.append_nil _).symm⟩
  · rw [internDynamicCapability] at h
    split at h
    · cases h
      exact ⟨[], (List.append_nil _).symm⟩
    · split at h
      · cases h
      · split at h
        · cases h
          exact ⟨_, rfl⟩
        · cases h

/-- What is delegable stays so. -/
theorem isDelegable_append {registry names : List String} {c : Capability}
    (h : c.isDelegable registry = true) : c.isDelegable (registry ++ names) = true := by
  cases c with
  | dynamic id =>
    have h : (registry[id.toNat]?).any (fun name => (metadata name).any Classification.delegable) = true := h
    obtain ⟨name, hget, hname⟩ := (Option.any_eq_true _ _).mp h
    have hget' : (registry ++ names)[id.toNat]? = some name := by
      rw [List.getElem?_append_left (List.getElem?_eq_some_iff.mp hget).1]
      exact hget
    show ((registry ++ names)[id.toNat]?).any (fun name => (metadata name).any Classification.delegable) =
      true
    rw [hget']
    exact hname
  | _ => exact h

/-- Over ranges, implication is containment in a range that does not wrap. -/
theorem implies_region {k : KernelCapability} {base size base' size' : UInt64} :
    kernelAuthorityImplies ⟨k, .mmioRegion base size⟩ ⟨k, .mmioRegion base' size'⟩ = true ↔
      base.toNat ≤ base'.toNat ∧ base'.toNat + size'.toNat ≤ base.toNat + size.toNat ∧
        base.toNat + size.toNat < 2 ^ 64 := by
  simp only [kernelAuthorityImplies, checkedAdd, ne_eq, not_true_eq_false, if_false]
  by_cases hparent : base.toNat + size.toNat < 2 ^ 64
  · by_cases hchild : base'.toNat + size'.toNat < 2 ^ 64
    · simp only [if_pos hparent, if_pos hchild, UInt64.le_iff_toNat_le, Bool.and_eq_true, decide_eq_true_eq]
      exact ⟨fun h => ⟨h.1, h.2, hparent⟩, fun h => ⟨h.1, h.2.1⟩⟩
    · simp only [if_pos hparent, if_neg hchild, Bool.false_eq_true, false_iff]
      omega
  · simp only [if_neg hparent, Bool.false_eq_true, false_iff]
    exact fun h => hparent h.2.2

/-- Elsewhere it is equality. -/
theorem implies_cases {a b : KernelAuthority} (h : kernelAuthorityImplies a b = true) : a = b ∨
    ∃ k base size base' size', a = ⟨k, .mmioRegion base size⟩ ∧ b = ⟨k, .mmioRegion base' size'⟩ := by
  obtain ⟨ca, oa⟩ := a
  obtain ⟨cb, ob⟩ := b
  have hcap : ca = cb := by
    by_contra hne
    rw [kernelAuthorityImplies, if_pos hne] at h
    cases h
  subst hcap
  cases oa <;> cases ob <;> simp_all [kernelAuthorityImplies]

/-- So it is between authorities. -/
theorem kernelAuthorityImplies_trans {a b c : KernelAuthority} (hab : kernelAuthorityImplies a b = true)
    (hbc : kernelAuthorityImplies b c = true) : kernelAuthorityImplies a c = true := by
  rcases implies_cases hab with rfl | ⟨k, base, size, base', size', rfl, rfl⟩
  · exact hbc
  · rcases implies_cases hbc with rfl | ⟨k', base', size', base'', size'', heq, rfl⟩
    · exact hab
    · cases heq
      rw [implies_region] at hab hbc ⊢
      omega

/-! ## The sets of a process -/

/-- `CapabilitySet`: `caps` is searched by `binary_search`. -/
structure CapabilitySet where
  caps : List Capability
  deriving DecidableEq, Repr

namespace CapabilitySet

/-- `insert`. -/
def insert (s : CapabilitySet) (c : Capability) : CapabilitySet := ⟨SortedList.insert s.caps c⟩

/-- `try_insert`, where the storage for one more is reserved if there is `room`. -/
def tryInsert (s : CapabilitySet) (c : Capability) (room : Bool) : Option CapabilitySet :=
  match SortedList.search s.caps c with
  | .ok _ => some s
  | .error index => if room then some ⟨s.caps.insertIdx index c⟩ else none

/-- `remove`: the set, and whether the capability was in it. -/
def remove (s : CapabilitySet) (c : Capability) : CapabilitySet × Bool :=
  match SortedList.remove s.caps c with
  | some caps => (⟨caps⟩, true)
  | none => (s, false)

/-- `contains_exact`. -/
def containsExact (s : CapabilitySet) (c : Capability) : Bool :=
  match SortedList.search s.caps c with
  | .ok _ => true
  | .error _ => false

/-- `implies`: by one of its members. -/
def implies (s : CapabilitySet) (c : Capability) : Bool := s.caps.any fun parent => capabilityImplies parent c

/-- Sorted, without duplicates. -/
def Sorted (s : CapabilitySet) : Prop := s.caps.Pairwise (· < ·)

instance (s : CapabilitySet) : Decidable s.Sorted := inferInstanceAs (Decidable (s.caps.Pairwise (· < ·)))

end CapabilitySet

/-- Authorities in the order they came. -/
structure KernelAuthoritySet where
  authorities : List KernelAuthority
  deriving DecidableEq, Repr

namespace KernelAuthoritySet

/-- `insert`. -/
def insert (s : KernelAuthoritySet) (a : KernelAuthority) : KernelAuthoritySet :=
  if a ∈ s.authorities then s else ⟨s.authorities ++ [a]⟩

/-- `try_insert`; `room` says whether the list can grow. -/
def tryInsert (s : KernelAuthoritySet) (a : KernelAuthority) (room : Bool) : Option KernelAuthoritySet :=
  if a ∈ s.authorities then some s else if room then some ⟨s.authorities ++ [a]⟩ else none

/-- `remove_exact`, and whether it was there. -/
def removeExact (s : KernelAuthoritySet) (a : KernelAuthority) : KernelAuthoritySet × Bool :=
  if a ∈ s.authorities then (⟨s.authorities.erase a⟩, true) else (s, false)

/-- `contains_exact`. -/
def containsExact (s : KernelAuthoritySet) (a : KernelAuthority) : Bool := a ∈ s.authorities

/-- `implies`: by one of its members. -/
def implies (s : KernelAuthoritySet) (a : KernelAuthority) : Bool :=
  s.authorities.any fun parent => kernelAuthorityImplies parent a

end KernelAuthoritySet

/-! ### What they do to the elements -/

namespace CapabilitySet

variable {s s' : CapabilitySet} {c d : Capability}

/-- The binary search is right on a sorted list. -/
theorem containsExact_iff (h : s.Sorted) : s.containsExact c = true ↔ c ∈ s.caps := by
  rw [← SortedList.search_isOk h, containsExact]
  cases SortedList.search s.caps c <;> simp

theorem mem_insert (h : s.Sorted) : d ∈ (s.insert c).caps ↔ d = c ∨ d ∈ s.caps := SortedList.mem_insert h

theorem sorted_insert (h : s.Sorted) : (s.insert c).Sorted := SortedList.sorted_insert h

/-- If it succeeds, it is an insertion. -/
theorem tryInsert_eq {room : Bool} (h : s.tryInsert c room = some s') : s' = s.insert c := by
  simp only [tryInsert, insert, SortedList.insert] at h ⊢
  cases hs : SortedList.search s.caps c with
  | ok i => simpa [hs] using h.symm
  | error i =>
    rw [hs] at h
    cases room with
    | false => cases h
    | true => simpa using h.symm

theorem mem_remove (h : s.Sorted) : d ∈ (s.remove c).1.caps ↔ d ∈ s.caps ∧ d ≠ c := by
  cases hr : SortedList.remove s.caps c with
  | none =>
    have hnot : c ∉ s.caps := (SortedList.remove_eq_none h).mp hr
    simp only [remove, hr]
    exact ⟨fun hd => ⟨hd, fun h0 => hnot (h0 ▸ hd)⟩, fun hd => hd.1⟩
  | some caps =>
    simp only [remove, hr]
    exact (SortedList.remove_eq_some h hr).2.2 d

theorem sorted_remove (h : s.Sorted) : (s.remove c).1.Sorted := by
  cases hr : SortedList.remove s.caps c with
  | none => simpa only [remove, hr] using h
  | some caps =>
    simp only [remove, hr]
    exact (SortedList.remove_eq_some h hr).2.1

/-- Removing what is not there changes nothing. -/
theorem remove_of_false (h : (s.remove c).2 = false) : (s.remove c).1 = s := by
  cases hr : SortedList.remove s.caps c with
  | none => simp only [remove, hr]
  | some caps => simp [remove, hr] at h

theorem implies_iff : s.implies d = true ↔ ∃ c ∈ s.caps, capabilityImplies c d = true := List.any_eq_true

end CapabilitySet

namespace KernelAuthoritySet

variable {s s' : KernelAuthoritySet} {a b : KernelAuthority}

theorem mem_insert : b ∈ (s.insert a).authorities ↔ b = a ∨ b ∈ s.authorities := by
  rw [insert]
  split
  · exact ⟨.inr, fun h => h.elim (fun h0 => h0 ▸ ‹_›) id⟩
  · simp [or_comm]

theorem tryInsert_eq {room : Bool} (h : s.tryInsert a room = some s') : s' = s.insert a := by
  simp only [tryInsert, insert] at h ⊢
  split at h
  · rw [if_pos ‹_›]
    exact (Option.some.inj h).symm
  · rw [if_neg ‹_›]
    cases room with
    | false => cases h
    | true => exact (Option.some.inj h).symm

theorem mem_of_removeExact (h : b ∈ (s.removeExact a).1.authorities) : b ∈ s.authorities := by
  rw [removeExact] at h
  split at h
  · exact List.mem_of_mem_erase h
  · exact h

theorem removeExact_of_false (h : (s.removeExact a).2 = false) : (s.removeExact a).1 = s := by
  rw [removeExact] at h ⊢
  split at h
  · cases h
  · rw [if_neg ‹_›]

theorem implies_iff : s.implies b = true ↔ ∃ a ∈ s.authorities, kernelAuthorityImplies a b = true :=
  List.any_eq_true

end KernelAuthoritySet

end Mnu.Capabilities
