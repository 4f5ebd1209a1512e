import WireSchema.Artifact.Class
set_option autoImplicit false

namespace WireSchema.Artifact

def failing (indent statement : Text) : Lines := [
  Text.cat [indent,"if ",statement,"err != nil \x7b"],
  Text.cat [indent,"\treturn err"],
  Text.cat [indent,"\x7d"]]

def Setup.lines : Setup → Lines
  | .header parent => [Text.cat ["\tm.Header = *New",parent,"()"]]
  | .tag none => ["\tm.Header.SetEMsg(m.GetEMsg())"]
  | .tag (some type) => [Text.cat ["\tm.Header.SetEMsg(",type,"(m.GetEMsg()))"]]
  | .message slot type => [Text.cat ["\t",slot.ref," = &",type,"\x7b\x7d"]]
  | .record slot className => [Text.cat ["\t",slot.ref," = *New",className,"()"]]
  | .value slot expr => [Text.cat ["\t",slot.ref," = ",expr.text]]

def TagMethod.lines (name : Text) : TagMethod → Lines
  | .tell type expr => [
    Text.cat ["func (m *",name,") GetEMsg() ",type," \x7b"],
    Text.cat ["\treturn ",expr.text],
    "\x7d",
    ""]
  | .take type field => Lines.cat [
    [Text.cat ["func (m *",name,") SetEMsg(msg ",type,") \x7b"]],
    match field with
    | none => []
    | some (slot,none) => [Text.cat ["\t",slot.ref," = msg"]]
    | some (slot,some own) => [Text.cat ["\t",slot.ref," = ",own,"(msg)"]],
    ["\x7d",""]]

def adaptedType : Transform → Text
  | .gameId => "steamd.GameID"
  | .bool => "bool"
  | _ => "steamd.SteamID"

def Accessor.lines (name : Text) (a : Accessor) : Lines :=
  let type := adaptedType a.transform
  if a.transform = .bool then [
    Text.cat ["func (m *",name,") ",a.ident,"() ",type," \x7b"],
    Text.cat ["\treturn ",a.slot.ref," != 0"],
    "\x7d",
    "",
    Text.cat ["func (m *",name,") Set",a.ident,"(v ",type,") \x7b"],
    "\tif v \x7b",
    Text.cat ["\t\t",a.slot.ref," = 1"],
    "\t\x7d else \x7b",
    Text.cat ["\t\t",a.slot.ref," = 0"],
    "\t\x7d",
    "\x7d",
    ""]
  else [
    Text.cat ["func (m *",name,") ",a.ident,"() ",type," \x7b"],
    Text.cat ["\treturn ",type,"(",a.slot.ref,")"],
    "\x7d",
    "",
    Text.cat ["func (m *",name,") Set",a.ident,"(v ",type,") \x7b"],
    Text.cat ["\t",a.slot.ref," = v.ToUint64()"],
    "\x7d",
    ""]

def renderCall (slot : Slot) : Plan.Shape Unit → Text
  | .external _ => Text.cat ["proto.Marshal(",slot.ref,")"]
  | .nested _ => Text.cat ["steamd.Marshal(&",slot.ref,")"]
  | _ => Text.cat ["steamd.MarshalValues(",slot.ref,")"]

def filling (payload call : Text) : Lines := Lines.cat [
  [Text.cat ["\t",payload,", err := ",call]],
  failing "\t" []]

def WriteStep.lines : WriteStep → Lines
  | .render slot shape => filling slot.payload (renderCall slot shape)
  | .setLength holder type slot =>
    failing "\t" (Text.cat [holder.ref,", err = steamd.LengthOf[",type,"](len(",slot.payload,
      ")); "])
  | .header => failing "\t" "err := m.Header.Serialize(w); "
  | .fixed slot transform =>
    let value : Text := match transform with
      | .protoMask => Text.cat ["steamd.MakeMsg(uint32(",slot.ref,"), true)"]
      | .protoMaskGc => Text.cat ["steamd.MakeGCMsg(uint32(",slot.ref,"), true)"]
      | _ => slot.ref
    failing "\t" (Text.cat ["err := binary.Write(w, steamd.ByteOrder, ",value,"); "])
  | .payload slot => failing "\t" (Text.cat ["_, err := w.Write(",slot.payload,"); "])

def readCall : Option Slot → Text
  | none => "io.ReadAll(r)"
  | some holder => Text.cat ["steamd.ReadPayload(r, ",holder.ref,")"]

def ReadStep.lines : ReadStep → Lines
  | .header => failing "\t" "err := m.Header.Deserialize(r); "
  | .fixed slot =>
    failing "\t" (Text.cat ["err := binary.Read(r, steamd.ByteOrder, &",slot.ref,"); "])
  | .masked slot type transform => Lines.cat [
    ["\t\x7b","\t\tvar raw uint32"],
    failing "\t\t" "err := binary.Read(r, steamd.ByteOrder, &raw); ",
    [Text.cat ["\t\t",slot.ref," = ",type,"(steamd.",
        if transform = .protoMaskGc then "GetGCMsg" else "GetMsg","(raw))"],
      "\t\x7d"]]
  | .record slot => failing "\t" (Text.cat ["err := ",slot.ref,".Deserialize(r); "])
  | .message slot length type => Lines.cat [
    filling slot.payload (readCall length),
    [Text.cat ["\t",slot.ref," = &",type,"\x7b\x7d"]],
    failing "\t" (Text.cat ["err := proto.Unmarshal(",slot.payload,", ",slot.ref,"); "])]
  | .framedRecord slot length => Lines.cat [
    filling slot.payload (readCall length),
    failing "\t" (Text.cat ["err := ",slot.ref,".Deserialize(bytes.NewReader(",slot.payload,
      ")); "])]
  | .numbers slot length element => Lines.cat [
    filling slot.payload (readCall length),
    failing "\t" (Text.cat [slot.ref,", err = steamd.UnmarshalValues[",element,"](",
      slot.payload,"); "])]

namespace ClassCode

def structLines (c : ClassCode) : Lines := Lines.cat [
  [Text.cat ["type ",c.name," struct \x7b"]],
  match c.parent with
  | none => []
  | some parent => Lines.cat [
    [Text.cat ["\tHeader ",parent]],
    if c.fields.isEmpty then [] else [""]],
  c.fields.flatMap fun f => Lines.cat [
    deprecatedLine "\t" f.deprecated,
    [Text.cat ["\t",f.ident," ",f.type]]],
  ["\x7d",
    "",
    Text.cat ["var _ ",c.marker," = (*",c.name,")(nil)"],
    ""]]

def constantLines (c : ClassCode) : Lines := c.constants.flatMap fun k => Lines.cat [
  deprecatedLine [] k.deprecated,
  [Text.cat ["const ",c.name,"_",k.name," ",k.type," = ",k.expr.text],""]]

def constructorLines (c : ClassCode) : Lines := Lines.cat [
  [Text.cat ["// New",c.name," returns a ",c.name," with every declared default applied."],
    Text.cat ["func New",c.name,"() *",c.name," \x7b"],
    Text.cat ["\tm := &",c.name,"\x7b\x7d"]],
  c.setup.flatMap Setup.lines,
  ["\treturn m","\x7d",""]]

def methodLines (c : ClassCode) (signature : Text) (steps : Lines) : Lines := Lines.cat [
  [Text.cat ["func (m *",c.name,") ",signature," error \x7b"]],
  steps,
  ["\treturn nil","\x7d",""]]

def lines (c : ClassCode) : Lines := Lines.cat [
  c.structLines,
  c.constantLines,
  c.constructorLines,
  match c.tag with
  | none => []
  | some tag => tag.lines c.name,
  c.accessors.flatMap (Accessor.lines c.name),
  c.methodLines "Serialize(w io.Writer)" (c.writes.flatMap WriteStep.lines),
  c.methodLines "Deserialize(r io.Reader)" (c.reads.flatMap ReadStep.lines)]

end ClassCode

end WireSchema.Artifact
