import WireSchema.Artifact.Json
import WireSchema.Plugin.Host
import WireSchema.Proofs.Plugin.Frame
set_option autoImplicit false

/-!
When a guest counts as successful. The host believes nothing that it has not looked at: a response
without an error means that both calls and the memory are there, that both requests for memory were
met, that the whole framed request was put inside of memory, that the status is zero in the byte
that counts, and that the files were read from the framed bytes that the slot leads to, all inside
of memory.
-/

namespace WireSchema

namespace Frame

theorem length_lengthBytes (n : UInt32) : (lengthBytes n).length = 4 := rfl

theorem lengthOf_lengthBytes (n : UInt32) : lengthOf (lengthBytes n) = n := by
  have hlt := n.toNat_lt
  rw [lengthOf,lengthBytes,Payload.valueOf_bytesOf,Nat.mod_eq_of_lt (by omega)]
  exact n.ofNat_toNat

theorem lengthBytes_lengthOf {bytes : Text} (h : bytes.length = 4) :
    lengthBytes (lengthOf bytes) = bytes := by
  have hvalue : (lengthOf bytes).toNat = Payload.valueOf bytes := by
    have htoNat := toNat_lengthOf bytes
    rwa [List.take_of_length_le (Nat.le_of_eq h)] at htoNat
  rw [lengthBytes,hvalue,← h,Payload.bytesOf_valueOf]

end Frame

namespace Plugin

namespace Memory

/-- Bytes stand at an offset, all of them inside. -/
def Holds (m : Memory) (offset : UInt32) (bytes : Text) : Prop :=
  ∃ before after, m = before ++ bytes ++ after ∧ before.length = offset.toNat

/-- Bytes have been put in their place inside, and nothing else has changed. -/
def Wrote (m : Memory) (offset : UInt32) (bytes : Text) (m' : Memory) : Prop :=
  ∃ before old after, m = before ++ old ++ after ∧ m' = before ++ bytes ++ after ∧
    before.length = offset.toNat ∧ old.length = bytes.length

variable {m m' : Memory} {offset : UInt32} {bytes : Text}

theorem Holds.inside (h : m.Holds offset bytes) : offset.toNat + bytes.length ≤ m.length := by
  obtain ⟨before,after,rfl,hlength⟩ := h
  simp only [List.length_append]
  omega

theorem Wrote.length (h : m.Wrote offset bytes m') : m'.length = m.length := by
  obtain ⟨before,old,after,rfl,rfl,-,hsame⟩ := h
  simp only [List.length_append,hsame]

theorem read?_eq_some {size : Nat} :
    m.read? offset size = some bytes ↔ bytes.length = size ∧ m.Holds offset bytes := by
  simp only [read?,Option.ite_none_right_eq_some,Option.some.injEq]
  constructor
  · rintro ⟨hinside,rfl⟩
    have hsplit : m = m.take offset.toNat ++ (m.drop offset.toNat).take size ++
        (m.drop offset.toNat).drop size := by
      rw [List.append_assoc,List.take_append_drop,List.take_append_drop]
    refine ⟨?_,_,_,hsplit,?_⟩
    · rw [List.length_take,List.length_drop]
      omega
    · rw [List.length_take]
      omega
  · rintro ⟨rfl,h⟩
    refine ⟨h.inside,?_⟩
    obtain ⟨before,after,rfl,hlength⟩ := h
    rw [← hlength,List.append_assoc,List.drop_left,List.take_left]

theorem write?_eq_some : m.write? offset bytes = some m' ↔ m.Wrote offset bytes m' := by
  simp only [write?,Option.ite_none_right_eq_some,Option.some.injEq]
  constructor
  · rintro ⟨hinside,rfl⟩
    have hsplit : m = m.take offset.toNat ++ (m.drop offset.toNat).take bytes.length ++
        m.drop (offset.toNat + bytes.length) := by
      rw [← List.drop_drop,List.append_assoc,List.take_append_drop,List.take_append_drop]
    refine ⟨_,_,_,hsplit,rfl,?_,?_⟩
    · rw [List.length_take]
      omega
    · rw [List.length_take,List.length_drop]
      omega
  · rintro ⟨before,old,after,rfl,rfl,hlength,hsame⟩
    simp only [List.length_append,← hlength,← hsame]
    refine ⟨by omega,?_⟩
    rw [List.append_assoc before old after,List.take_left,← List.append_assoc,
      ← List.length_append,List.drop_left]

theorem word?_eq_some {w : UInt32} :
    m.word? offset = some w ↔ m.Holds offset (Frame.lengthBytes w) := by
  rw [word?,Option.map_eq_some_iff]
  constructor
  · rintro ⟨bytes,hbytes,rfl⟩
    obtain ⟨hlength,hholds⟩ := read?_eq_some.mp hbytes
    rwa [Frame.lengthBytes_lengthOf hlength]
  · intro h
    exact ⟨_,read?_eq_some.mpr ⟨Frame.length_lengthBytes w,h⟩,Frame.lengthOf_lengthBytes w⟩

theorem Holds.append {more : Text} {next : UInt32} (h : m.Holds offset bytes)
    (hmore : m.Holds next more) (hnext : next.toNat = offset.toNat + bytes.length) :
    m.Holds offset (bytes ++ more) := by
  obtain ⟨before,after,hm,hlength⟩ := h
  obtain ⟨before',after',hm',hlength'⟩ := hmore
  have hfront : before' = before ++ bytes := by
    have hsplit : before' ++ (more ++ after') = (before ++ bytes) ++ after := by
      rw [← List.append_assoc,← hm',hm]
    refine (List.append_inj hsplit ?_).1
    rw [hlength',hnext,List.length_append,hlength]
  refine ⟨before,after',?_,hlength⟩
  rw [hm',hfront]
  simp only [List.append_assoc]

end Memory

variable {σ : Type} {g : Guest σ} {m m' : Machine σ} {request bytes : Text}

/-- A guest has given memory of a size, by one word of 64 bits whose low half is the pointer. A word
of zero is an answer only to a size of zero. -/
def Allocated (allocate : UInt64 → Machine σ → Reply σ) (size : UInt32) (m : Machine σ)
    (pointer : UInt32) (m' : Machine σ) : Prop :=
  ∃ word : UInt64, allocate size.toUInt64 m = .ok ([word],m') ∧ (word ≠ 0 ∨ size = 0) ∧
    word.toUInt32 = pointer

theorem not_refused {word : UInt64} {size : UInt32} :
    ¬ (word = 0 ∧ 0 < size) ↔ word ≠ 0 ∨ size = 0 := by
  have hsize : ¬ 0 < size ↔ size = 0 := by
    rw [UInt32.lt_iff_toNat_lt,← UInt32.toNat_inj]
    exact Nat.not_lt.trans Nat.le_zero
  rw [not_and_or,hsize]

theorem reserve_eq_ok {allocate : UInt64 → Machine σ → Reply σ} {size pointer : UInt32} :
    reserve allocate size m = .ok (pointer,m') ↔ Allocated allocate size m pointer m' := by
  unfold reserve Allocated
  rcases allocate size.toUInt64 m with cause | ⟨_ | ⟨word,_ | ⟨other,more⟩⟩,after⟩
  · simp [Except.mapError]
  · simp [Except.mapError]
  · simp only [Except.mapError,Result.ok_bind,Except.ok.injEq,Prod.mk.injEq,List.cons.injEq,
      and_true]
    by_cases hnone : word = 0 ∧ 0 < size
    · rw [if_pos hnone]
      simp only [reduceCtorEq,false_iff]
      rintro ⟨_,⟨rfl,-⟩,hgiven,-⟩
      exact not_refused.mpr hgiven hnone
    · rw [if_neg hnone,Except.ok.injEq,Prod.mk.injEq]
      constructor
      · rintro ⟨rfl,rfl⟩
        exact ⟨word,⟨rfl,rfl⟩,not_refused.mp hnone,rfl⟩
      · rintro ⟨_,⟨rfl,rfl⟩,-,rfl⟩
        exact ⟨rfl,rfl⟩
  · simp [Except.mapError]

example (m : Machine Nat) : reserve (fun _ m => .ok ([0x100000000],m)) 4 m = .ok (0,m) := by
  rfl

/-- A slot leads to framed bytes. Every offset is a number of 32 bits. -/
def Framed (memory : Memory) (slot : UInt32) (bytes : Text) : Prop :=
  ∃ pointer size : UInt32, memory.Holds slot (Frame.lengthBytes pointer) ∧
    memory.Holds pointer (Frame.lengthBytes size) ∧ bytes.length = size.toNat ∧
    memory.Holds (pointer + 4) bytes

theorem orFault_eq_ok {α : Type} {fault : Fault} {x : Option α} {a : α} :
    orFault fault x = .ok a ↔ x = some a := by
  cases x <;> simp [orFault]

theorem readFrame_eq_ok {memory : Memory} {slot : UInt32} :
    readFrame memory slot = .ok bytes ↔ Framed memory slot bytes := by
  simp only [readFrame,Result.bind_eq_ok,orFault_eq_ok,Memory.word?_eq_some,Memory.read?_eq_some,
    Framed,exists_and_left]

theorem Framed.whole {memory : Memory} {slot : UInt32} (h : Framed memory slot bytes)
    (hmemory : memory.length < 2 ^ 32) :
    ∃ pointer, memory.Holds slot (Frame.lengthBytes pointer) ∧
      memory.Holds pointer (Frame.encode bytes) := by
  obtain ⟨pointer,size,hslot,hlength,hsize,hbytes⟩ := h
  have hinside := hlength.inside
  have hnext : (pointer + 4).toNat = pointer.toNat + 4 := by
    rw [Frame.length_lengthBytes] at hinside
    rw [UInt32.toNat_add]
    have hfour : (4 : UInt32).toNat = 4 := rfl
    omega
  have hencode : Frame.encode bytes = Frame.lengthBytes size ++ bytes := by
    rw [Frame.encode,hsize]
    congr 2
    exact size.ofNat_toNat
  exact ⟨pointer,hslot,by rw [hencode]; exact hlength.append hbytes hnext⟩

/-- A guest has run on a request without a failure: it exports both calls and its memory, gave
memory for the request and for the slot, and came back with one result, with the request whole in
its memory before. -/
inductive Ran (g : Guest σ) (m : Machine σ) (request : Text) (slot : UInt32) (status : UInt64)
    (after : Machine σ) : Prop where
  | mk {allocate : UInt64 → Machine σ → Reply σ} {generate : UInt64 → UInt64 → Machine σ → Reply σ}
      {pointer : UInt32} {given ready : Machine σ} {memory : Memory}
      (allocates : g.allocate = some allocate) (generates : g.generate = some generate)
      (exports : g.exportsMemory = true)
      (buffer : Allocated allocate request.length.toUInt32 m pointer given)
      (wrote : given.memory.Wrote pointer request memory)
      (space : Allocated allocate 4 { given with memory } slot ready)
      (returned : generate pointer.toUInt64 slot.toUInt64 ready = .ok ([status],after))

theorem call_eq_ok {start : Start σ} {status : UInt8} : call start request = .ok (bytes,status) ↔
    ∃ g m slot wide after, start = .ok (g,m) ∧ Ran g m request slot wide after ∧
      Framed after.memory slot bytes ∧ wide.toUInt8 = status := by
  unfold call
  constructor
  · intro h
    obtain ⟨⟨g,m⟩,hstart,h⟩ := Result.bind_eq_ok.mp h
    obtain ⟨allocate,hallocate,h⟩ := Result.bind_eq_ok.mp h
    obtain ⟨generate,hgenerate,h⟩ := Result.bind_eq_ok.mp h
    cases hexports : g.exportsMemory with
    | false => simp [hexports,Result.error_bind] at h
    | true =>
    simp only [hexports,Bool.not_true,Bool.false_eq_true,if_false,Result.pure_eq_ok] at h
    obtain ⟨⟨pointer,given⟩,hbuffer,h⟩ := Result.bind_eq_ok.mp h
    obtain ⟨memory,hmemory,h⟩ := Result.bind_eq_ok.mp h
    obtain ⟨⟨slot,ready⟩,hspace,h⟩ := Result.bind_eq_ok.mp h
    obtain ⟨⟨results,after⟩,hreturned,h⟩ := Result.bind_eq_ok.mp h
    rcases results with _ | ⟨wide,_ | ⟨other,more⟩⟩
    · cases h
    · obtain ⟨frame,hframe,h⟩ := Result.bind_eq_ok.mp h
      cases h
      exact ⟨g,m,slot,wide,after,Result.mapError_eq_ok.mp hstart,
        ⟨orFault_eq_ok.mp hallocate,orFault_eq_ok.mp hgenerate,hexports,reserve_eq_ok.mp hbuffer,
          Memory.write?_eq_some.mp (orFault_eq_ok.mp hmemory),reserve_eq_ok.mp hspace,
          Result.mapError_eq_ok.mp hreturned⟩,readFrame_eq_ok.mp hframe,rfl⟩
    · cases h
  · rintro ⟨g,m,slot,wide,after,rfl,⟨hallocate,hgenerate,hexports,hbuffer,hwrote,hspace,hreturned⟩,
      hframe,rfl⟩
    simp only [Except.mapError,Result.ok_bind,hallocate,hgenerate,hexports,orFault,Bool.not_true,
      Bool.false_eq_true,if_false,Result.pure_eq_ok,reserve_eq_ok.mpr hbuffer,
      Memory.write?_eq_some.mpr hwrote,reserve_eq_ok.mpr hspace,hreturned,
      readFrame_eq_ok.mpr hframe]

theorem answered_error {name : Text} {status : UInt8} {r : Artifact.Response} :
    (answered name status r).error = [] ↔ status = 0 ∧ r.error = [] := by
  unfold answered
  split
  · rename_i hfailed
    have hmessage : Text.ofString "plugin " ≠ [] := by decide
    simp [hfailed.1,hmessage]
  · rename_i hpassed
    rw [not_and_or,not_not,List.isEmpty_iff] at hpassed
    tauto

theorem generate_eq_ok {x : Exchange} {name : Text} {canceled : Bool} {start : Start σ}
    {r : Artifact.Request} {response : Artifact.Response} :
    generate x name canceled start r = .ok response ↔
      canceled = false ∧ ∃ payload g m slot status after bytes answer,
        x.request.write r = .ok payload ∧ start = .ok (g,m) ∧
        Ran g m (Frame.encode payload) slot status after ∧ Framed after.memory slot bytes ∧
        x.response.read bytes = .ok answer ∧ answered name status.toUInt8 answer = response := by
  cases canceled with
  | true => simp [generate,Result.error_bind]
  | false =>
    simp only [generate,Bool.false_eq_true,if_false,Result.pure_eq_ok,Result.bind_eq_ok,
      Result.mapError_eq_ok,Except.ok.injEq,true_and]
    constructor
    · rintro ⟨payload,hpayload,⟨bytes,status⟩,hcall,answer,hanswer,rfl⟩
      obtain ⟨g,m,slot,wide,after,hstart,hran,hframe,rfl⟩ := call_eq_ok.mp hcall
      exact ⟨payload,g,m,slot,wide,after,bytes,answer,hpayload,hstart,hran,hframe,hanswer,rfl⟩
    · rintro ⟨payload,g,m,slot,wide,after,bytes,answer,hpayload,hstart,hran,hframe,hanswer,rfl⟩
      have hcall := call_eq_ok.mpr ⟨g,m,slot,wide,after,hstart,hran,hframe,rfl⟩
      exact ⟨payload,hpayload,(bytes,wide.toUInt8),hcall,answer,hanswer,rfl⟩

/-- A response has no error exactly if the run was not canceled, the request could be written, the
program of the plugin could be started, the guest ran on the framed request with a status whose low
byte is zero, and it left a slot that leads to framed bytes, which are read as that response. Unless
the memory has all bytes that 32 bits can count, the frame is one stretch of it. -/
theorem generate_succeeds_iff (x : Exchange) (name : Text) (canceled : Bool) (start : Start σ)
    (r : Artifact.Request) (response : Artifact.Response) :
    (generate x name canceled start r = .ok response ∧ response.error = [] ↔
      canceled = false ∧ ∃ payload g m slot status after bytes,
        x.request.write r = .ok payload ∧ start = .ok (g,m) ∧
        Ran g m (Frame.encode payload) slot status after ∧ status.toUInt8 = 0 ∧
        Framed after.memory slot bytes ∧ x.response.read bytes = .ok response ∧
        response.error = []) ∧
    ∀ (memory : Memory) slot bytes, Framed memory slot bytes → memory.length < 2 ^ 32 →
      ∃ pointer, memory.Holds slot (Frame.lengthBytes pointer) ∧
        memory.Holds pointer (Frame.encode bytes) := by
  refine ⟨?_,fun memory slot bytes hframe hmemory => hframe.whole hmemory⟩
  rw [generate_eq_ok]
  constructor
  · rintro ⟨⟨hrunning,payload,g,m,slot,status,after,bytes,answer,hpayload,hstart,hran,
      hframe,hanswer,rfl⟩,herror⟩
    obtain ⟨hstatus,hclean⟩ := answered_error.mp herror
    have hsame : answered name status.toUInt8 answer = answer := by
      rw [answered,if_neg fun hfailed => hfailed.1 hstatus]
    rw [hsame]
    exact ⟨hrunning,payload,g,m,slot,status,after,bytes,hpayload,hstart,hran,hstatus,hframe,hanswer,
      hclean⟩
  · rintro ⟨hrunning,payload,g,m,slot,status,after,bytes,hpayload,hstart,hran,hstatus,
      hframe,hanswer,hclean⟩
    have hsame : answered name status.toUInt8 response = response := by
      rw [answered,if_neg fun hfailed => hfailed.1 hstatus]
    exact ⟨⟨hrunning,payload,g,m,slot,status,after,bytes,response,hpayload,hstart,hran,hframe,
      hanswer,hsame⟩,hclean⟩

/-- A guest that gives memory piece by piece, has an empty response at 16, and says how it went. -/
def replying (status : UInt64) : Guest Nat where
  allocate := some fun size m => .ok ([m.own.toUInt64],{ m with own := m.own + size.toNat })
  generate := some fun _ slot m =>
    match m.memory.write? slot.toUInt32 (Frame.lengthBytes 16) with
    | some memory => .ok ([status],{ m with memory })
    | none => .error "unreachable"
  exportsMemory := true

def loaded : Machine Nat :=
  ⟨List.replicate 16 0 ++ Frame.encode "\x7b\x7d" ++ List.replicate 234 0,22⟩

def order : Artifact.Request := ⟨some [⟨"a.steamd","enum A \x7b X; \x7d;"⟩],[],"n",false,[]⟩

def tried (status : UInt64) : Except Fault Artifact.Response :=
  generate .json "fake.wasm" false (.ok (replying status,loaded)) order

theorem tried_eq_ok {status : UInt64} {response : Artifact.Response}
    (h : (tried status).toOption = some response) : tried status = .ok response := by
  cases hrun : tried status with
  | error fault => simp [hrun,Except.toOption] at h
  | ok other => simpa [hrun,Except.toOption] using h

theorem Ran.replying {status wide : UInt64} {slot : UInt32} {request : Text} {m after : Machine Nat}
    (h : Ran (replying status) m request slot wide after) :
    wide = status ∧ after.memory.length = m.memory.length := by
  obtain ⟨allocates,generates,-,⟨_,buffer,-⟩,wrote,⟨_,space,-⟩,returned⟩ := h
  cases allocates
  cases generates
  cases buffer
  cases space
  dsimp only at returned
  split at returned
  · rename_i memory hmemory
    cases returned
    exact ⟨rfl,(Memory.write?_eq_some.mp hmemory).length.trans wrote.length⟩
  · cases returned

theorem replying_succeeds :
    generate .json "fake.wasm" false (.ok (replying 0,loaded)) order = .ok ⟨none,[]⟩ ∧
    ∃ payload slot status after bytes pointer,
      Exchange.json.request.write order = .ok payload ∧
      Ran (replying 0) loaded (Frame.encode payload) slot status after ∧
      status.toUInt8 = 0 ∧ after.memory.Holds slot (Frame.lengthBytes pointer) ∧
      after.memory.Holds pointer (Frame.encode bytes) ∧
      Exchange.json.response.read bytes = .ok ⟨none,[]⟩ := by
  have hrun : tried 0 = .ok ⟨none,[]⟩ := tried_eq_ok (by decide +kernel)
  obtain ⟨hiff,hwhole⟩ :=
    generate_succeeds_iff .json "fake.wasm" false (.ok (replying 0,loaded)) order ⟨none,[]⟩
  obtain ⟨-,payload,g,m,slot,status,after,bytes,hpayload,hstart,hran,hstatus,hframe,hread,-⟩ :=
    hiff.mp ⟨hrun,rfl⟩
  cases hstart
  have hsmall : after.memory.length < 2 ^ 32 := by
    rw [hran.replying.2]
    decide +kernel
  obtain ⟨pointer,hslot,hheld⟩ := hwhole _ _ _ hframe hsmall
  exact ⟨hrun,payload,slot,status,after,bytes,pointer,hpayload,hran,hstatus,hslot,hheld,hread⟩

/-- A status of which only the low byte is zero is taken for a success. -/
theorem wide_status_succeeds :
    generate .json "fake.wasm" false (.ok (replying 256,loaded)) order = .ok ⟨none,[]⟩ ∧
    (256 : UInt32) ≠ 0 ∧ (256 : UInt32).toUInt64 = 256 ∧
    ∃ payload slot after, Ran (replying 256) loaded (Frame.encode payload) slot 256 after := by
  have hrun : tried 256 = .ok ⟨none,[]⟩ := tried_eq_ok (by decide +kernel)
  obtain ⟨-,payload,g,m,slot,wide,after,-,-,-,hstart,hran,-,-,-⟩ := generate_eq_ok.mp hrun
  cases hstart
  have hwide := hran.replying.1
  subst hwide
  exact ⟨hrun,by decide,rfl,payload,slot,after,hran⟩

end Plugin

end WireSchema
