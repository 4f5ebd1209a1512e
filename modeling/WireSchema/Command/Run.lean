import WireSchema.Command.Codegen
import WireSchema.Command.Report
import WireSchema.Record.Dump
import WireSchema.Text.Hex
import WireSchema.Text.Space
set_option autoImplicit false

namespace WireSchema.Command

structure Setting where
  files : Files
  input : Text
  environment : Settings.Environment
  deriving Repr

def failMissing (file : Files.Fault) (disk : Disk) : Outcome :=
  (Outcome.fail file.message disk).lacking [file.path]

def failLoad (fault : Load.Fault) (disk : Disk) : Outcome :=
  let fault := Codegen.Fault.job (.load fault)
  (Outcome.fail fault.message disk).lacking fault.missingFiles

def tokenLine (source : Text) (t : Token) : Text :=
  Text.cat [(Position.ofOffset source t.offset).toText,"\t",t.kind.name,"\t",t.text]

def runTokens (p : Parsed) (disk : Disk) : Outcome :=
  match p.arguments with
  | [path] => match disk.files.read path with
    | .error file => failMissing file disk
    | .ok source => .ok (Lines.text ((Token.ofSource source).map (tokenLine source))) disk
  | _ => .usage .tokens disk

def warningLine (w : Located Schema.Warning) : Text :=
  Text.cat ["warning: ",Load.warningText w]

def runCompile (p : Parsed) (disk : Disk) : Outcome :=
  match p.arguments with
  | [path] => match (Load.compile disk.files path).1 with
    | .error fault => failLoad fault disk
    | .ok compiled =>
      let outcome := match Report.ofCompiled (p.isSet "gc") compiled with
        | .error fault => Outcome.fail fault.message disk
        | .ok report => .ok (if p.isSet "json" then report.jsonLine else report.text) disk
      outcome.after (Lines.text (compiled.warnings.map warningLine))
  | _ => .usage .compile disk

/-- The bytes of a message, which may be written in hexadecimal with white space anywhere. -/
def messageBytes (hex : Bool) (input : Text) : Except Text.Hex.Fault Text :=
  if hex then Text.Hex.decode (Text.withoutSpace input) else .ok input

def showMessage (externals : External.Kinds) (p : Parsed) (schema : Schema)
    (className input : Text) (disk : Disk) : Outcome :=
  match messageBytes (p.isSet "hex") input with
  | .error fault => .fail fault.message disk
  | .ok bytes =>
    match (Codec.new schema (p.isSet "gc") externals).decode className bytes with
    | (.error fault,_) => .fail fault.message disk
    | (.ok record,codec) => .ok (codec.dump record).1 disk

/-- Decodes a message of a class of a source. The source is looked at before the message. -/
def decodeMessage (externals : External.Kinds) (p : Parsed) (disk : Disk) (path className : Text)
    (input : Except Files.Fault Text) : Outcome :=
  match (Load.compile disk.files path).1 with
  | .error fault => failLoad fault disk
  | .ok compiled => match input with
    | .error file => failMissing file disk
    | .ok input => showMessage externals p compiled.schema className input disk

def runDecode (externals : External.Kinds) (input : Text) (p : Parsed) (disk : Disk) : Outcome :=
  match p.arguments with
  | [path,className] => decodeMessage externals p disk path className (.ok input)
  | [path,className,file] => decodeMessage externals p disk path className (disk.files.read file)
  | _ => .usage .decode disk

def runNamed (lib : Library) (storage : Storage) (s : Setting) (name : Name) (p : Parsed)
    (disk : Disk) : Outcome :=
  match name with
  | .tokens => runTokens p disk
  | .compile => runCompile p disk
  | .codegen =>
    let _ := lib.casing
    Codegen.run lib.settings lib.log .none storage s.environment p disk
  | .decode => runDecode lib.externals s.input p disk
  | .help => .ok lib.usage disk

def readsInput (lib : Library) (arguments : List Text) : Bool :=
  match lib.find arguments with
  | .ok (some .decode,arguments) =>
    match lib.flags (flagsOf .decode) arguments with
    | .ok p => p.arguments.length == 2
    | .error _ => false
  | _ => false

def run (lib : Library) (storage : Storage) (s : Setting) (arguments : List Text) : Outcome :=
  let disk := Disk.ofFiles s.files
  match lib.find arguments with
  | .error message => .fail message disk
  | .ok (name,arguments) =>
    match lib.flags (name.elim [helpFlag] flagsOf) arguments with
    | .error message => .fail message disk
    | .ok p =>
      if p.isSet "help" then .ok lib.usage disk
      else match name with
        | none => ⟨1,[],lib.usage,disk,[]⟩
        | some name => runNamed lib storage s name p disk

end WireSchema.Command
