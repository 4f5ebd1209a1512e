import WireSchema.Artifact.Generate
set_option autoImplicit false

namespace WireSchema

namespace Artifact

structure Response where
  files : Option (List OutputFile)
  error : Text
  deriving DecidableEq, Repr, Inhabited

def Response.fileList (r : Response) : List OutputFile := r.files.getD []

end Artifact

/-- How values become texts, and texts values. Both may fail. -/
structure Exchange.Format (α : Type) where
  write : α → Except Text Text
  read : Text → Except Text α

structure Exchange where
  request : Exchange.Format Artifact.Request
  response : Exchange.Format Artifact.Response

namespace Artifact

variable [Casing] (x : Exchange)

def answer (payload : Text) : Except Text Response := do
  let r ← (x.request.read payload).mapError fun cause => Text.cat ["decode request: ",cause]
  let files ← (generate r true).mapError Fault.message
  return ⟨some files,[]⟩

/-- The generator as a program: the text of its response, and its status. -/
def respond (payload : Text) : Text × UInt32 :=
  match answer x payload >>= x.response.write with
  | .ok text => (text,0)
  | .error message => (((x.response.write ⟨none,message⟩).toOption).getD [],1)

end Artifact

end WireSchema
