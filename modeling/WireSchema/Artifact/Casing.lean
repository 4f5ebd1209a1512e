import WireSchema.Artifact.Batch
set_option autoImplicit false

/-!
Exported names as the usual library writes them: words separated by underscores are joined, each
with a capital first letter, and well-known abbreviations are written in capitals throughout.
-/

namespace WireSchema.Artifact.Casing

def abbreviations : List Text := List.map Text.ofString [
  "ACL","API","ASCII","CPU","CSS","DNS","EOF","ETA","GPU","GUID","HTML","HTTP","HTTPS",
  "ID","IP","JSON","LHS","OS","QPS","RAM","RHS","RPC","SLA","SMTP","SQL","SSH","TCP",
  "TLS","TTL","UDP","UI","UID","UUID","URI","URL","UTF8","VM","XML","XMPP","XSRF",
  "XSS"]

def word (w : Text) : Text :=
  if w == Text.ofString "oauth" then "OAuth"
  else
    let capitals := w.map Text.upper
    if abbreviations.contains capitals then capitals
    else match w with
      | [] => []
      | first :: rest => Text.upper first :: rest

instance standard : Casing where
  camel name := ((Text.splitOn (Text.byte '_') name).map word).flatten

end WireSchema.Artifact.Casing
