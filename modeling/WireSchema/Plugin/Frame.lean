import WireSchema.Message.Payload
set_option autoImplicit false

namespace WireSchema.Frame

inductive Fault where
  | short
  /-- The end of the frame is counted in 32 bits and does not fit them. -/
  | overflow
  deriving DecidableEq, Repr

def Fault.message : Fault → Text
  | .short => "frame is shorter than its length prefix"
  | .overflow => "slice bounds out of range"

def lengthBytes (n : UInt32) : Text := Payload.bytesOf 4 n.toNat

def lengthOf (bytes : Text) : UInt32 := (Payload.valueOf bytes).toUInt32

def encode (payload : Text) : Text := lengthBytes payload.length.toUInt32 ++ payload

/-- What the frame holds that bytes start with. What follows the frame is ignored. -/
def decode (bytes : Text) : Except Fault Text :=
  if bytes.length < 4 then .error .short
  else
    let size := lengthOf (bytes.take 4)
    if bytes.length - 4 < size.toNat then .error .short
    else if (4 + size).toNat < 4 then .error .overflow
    else .ok ((bytes.drop 4).take ((4 + size).toNat - 4))

end WireSchema.Frame
