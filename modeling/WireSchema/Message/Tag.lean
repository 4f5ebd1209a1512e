set_option autoImplicit false

namespace WireSchema.Tag

def protoMask : UInt32 := 0x80000000

def make (number : UInt32) (protobuf : Bool) : UInt32 :=
  if protobuf then number ||| protoMask else number

def number (raw : UInt32) : UInt32 := raw &&& ~~~protoMask

def isProtobuf (raw : UInt32) : Bool := raw &&& protoMask != 0

end WireSchema.Tag
