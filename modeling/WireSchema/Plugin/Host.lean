import WireSchema.Artifact.Exchange
import WireSchema.Plugin.Frame
set_option autoImplicit false

/-!
Running a generator that lives in a machine of its own. The two share nothing but the machine's
memory: the host puts a framed request there, and finds the framed response through a pointer that
the guest leaves in a slot. Nothing that the guest does is trusted.
-/

namespace WireSchema.Plugin

abbrev Memory := Text

namespace Memory

def read? (m : Memory) (offset : UInt32) (size : Nat) : Option Text :=
  if offset.toNat + size ≤ m.length then some ((m.drop offset.toNat).take size) else none

def write? (m : Memory) (offset : UInt32) (bytes : Text) : Option Memory :=
  if offset.toNat + bytes.length ≤ m.length then
    some (m.take offset.toNat ++ bytes ++ m.drop (offset.toNat + bytes.length))
  else none

def word? (m : Memory) (offset : UInt32) : Option UInt32 :=
  (m.read? offset 4).map Frame.lengthOf

end Memory

/-- A machine: its memory, and whatever else its program keeps. -/
structure Machine (σ : Type) where
  memory : Memory
  own : σ
  deriving Repr

/-- What a call comes to: its results and the machine after it, or why the machine has stopped. -/
abbrev Reply (σ : Type) := Except Text (List UInt64 × Machine σ)

/-- The program of a machine. What it does not export is missing. Whatever their declared types,
arguments and results are words of 64 bits. -/
structure Guest (σ : Type) where
  allocate : Option (UInt64 → Machine σ → Reply σ)
  generate : Option (UInt64 → UInt64 → Machine σ → Reply σ)
  exportsMemory : Bool

/-- A program that has been started, or why it could not be. -/
abbrev Start (σ : Type) := Except Text (Guest σ × Machine σ)

inductive Fault where
  | canceled
  | unwritable (cause : Text)
  | runtime (cause : Text)
  | noAllocate
  | noGenerate
  | noMemory
  | allocation (size : UInt32)
  | requestOutOfRange
  | results (count : Nat)
  | slotOutOfRange
  | lengthOutOfRange
  | responseOutOfRange
  | undecodable (cause : Text)
  deriving DecidableEq, Repr

namespace Fault

/-- Whether the plugin breaks the rules that host and guest share. -/
def isMalformed : Fault → Bool
  | .canceled | .unwritable _ | .runtime _ | .undecodable _ => false
  | _ => true

def reason : Fault → Text
  | .canceled => "context canceled"
  | .unwritable cause | .runtime cause => cause
  | .noAllocate => "missing export steamd_codegen_allocate"
  | .noGenerate => "missing export steamd_codegen_generate"
  | .noMemory => "no exported memory"
  | .allocation size => Text.cat ["allocation of ",Text.ofNat size.toNat," bytes failed"]
  | .requestOutOfRange => "request buffer out of range"
  | .results count => Text.cat ["steamd_codegen_generate returned ",Text.ofNat count," values"]
  | .slotOutOfRange => "response slot out of range"
  | .lengthOutOfRange => "failed to read response length"
  | .responseOutOfRange => "failed to read response"
  | .undecodable cause => Text.cat ["decode response: ",cause]

def message (plugin : Text) (f : Fault) : Text :=
  match f with
  | .canceled | .unwritable _ => f.reason
  | _ =>
    if f.isMalformed then
      Text.cat ["plugin ",plugin,": malformed codegen plugin: ",f.reason]
    else Text.cat ["plugin ",plugin,": ",f.reason]

end Fault

def orFault {α : Type} (fault : Fault) : Option α → Except Fault α
  | some x => .ok x
  | none => .error fault

variable {σ : Type}

/-- Asks for memory. The answer is tested for zero in all of its bits, but only the low half of it
is the pointer. -/
def reserve (allocate : UInt64 → Machine σ → Reply σ) (size : UInt32) (m : Machine σ) :
    Except Fault (UInt32 × Machine σ) := do
  let (results,m) ← (allocate size.toUInt64 m).mapError .runtime
  match results with
  | [word] =>
    if word = 0 ∧ 0 < size then .error (.allocation size) else .ok (word.toUInt32,m)
  | _ => .error (.allocation size)

def readFrame (m : Memory) (slot : UInt32) : Except Fault Text := do
  let pointer ← orFault .slotOutOfRange (m.word? slot)
  let size ← orFault .lengthOutOfRange (m.word? pointer)
  orFault .responseOutOfRange (m.read? (pointer + 4) size.toNat)

/-- Hands framed bytes to a guest, and brings back the bytes of its response with its status. -/
def call (start : Start σ) (request : Text) : Except Fault (Text × UInt8) := do
  let (g,m) ← start.mapError .runtime
  let allocate ← orFault .noAllocate g.allocate
  let generate ← orFault .noGenerate g.generate
  if !g.exportsMemory then .error .noMemory
  let (pointer,m) ← reserve allocate request.length.toUInt32 m
  let memory ← orFault .requestOutOfRange (m.memory.write? pointer request)
  let (slot,m) ← reserve allocate 4 { m with memory }
  let (results,m) ← (generate pointer.toUInt64 slot.toUInt64 m).mapError .runtime
  match results with
  | [status] => return (← readFrame m.memory slot,status.toUInt8)
  | _ => .error (.results results.length)

/-- A response with the status that it came with. A status other than zero is a failure, also if the
response does not say so. -/
def answered (name : Text) (status : UInt8) (r : Artifact.Response) : Artifact.Response :=
  if status ≠ 0 ∧ r.error.isEmpty then
    { r with error := Text.cat ["plugin ",name," failed with status ",Text.ofNat status.toNat] }
  else r

def generate (x : Exchange) (name : Text) (canceled : Bool) (start : Start σ)
    (r : Artifact.Request) : Except Fault Artifact.Response := do
  if canceled then .error .canceled
  let payload ← (x.request.write r).mapError .unwritable
  let (bytes,status) ← call start (Frame.encode payload)
  let response ← (x.response.read bytes).mapError .undecodable
  return answered name status response

end WireSchema.Plugin
