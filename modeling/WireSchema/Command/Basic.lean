import WireSchema.Artifact.Batch
import WireSchema.Files.Disk
import WireSchema.Log.Basic
import WireSchema.Record.External
import WireSchema.Settings.Load
set_option autoImplicit false

/-!
The commands of the program with their flags, and what a run leaves behind. How a command line is
read is left to a library.
-/

namespace WireSchema.Command

inductive Name where
  | tokens
  | compile
  | codegen
  | decode
  | help
  deriving DecidableEq, Repr, Inhabited

namespace Name

def text : Name → Text
  | .tokens => "tokens"
  | .compile => "compile"
  | .codegen => "codegen"
  | .decode => "decode"
  | .help => "help"

def all : List Name := [.tokens,.compile,.codegen,.decode,.help]

def ofText? (t : Text) : Option Name := all.find? fun name => name.text == t

def usage : Name → Text
  | .tokens => "tokens FILE"
  | .compile => "compile [--json] FILE"
  | .codegen => "codegen [options] [FILE]"
  | .decode => "decode [--hex] SOURCE CLASS [INPUT]"
  | .help => "help [command]"

def summary : Name → Text
  | .tokens => "Print the tokens of a source file"
  | .compile => "Check a source file and print the layout of every declaration"
  | .codegen => "Generate code for a source file or for every job of a config file"
  | .decode => "Decode one message of a class and print its fields"
  | .help => "Help about any command"

end Name

inductive Flag.Kind where
  | text
  | bool
  | list
  deriving DecidableEq, Repr

structure Flag where
  name : Text
  short : Option UInt8
  kind : Flag.Kind
  deriving DecidableEq, Repr

def helpFlag : Flag := ⟨"help",some (Text.byte 'h'),.bool⟩

def flagsOf : Name → List Flag
  | .tokens | .help => [helpFlag]
  | .compile => [helpFlag,⟨"json",none,.bool⟩,⟨"gc",none,.bool⟩]
  | .decode => [helpFlag,⟨"hex",none,.bool⟩,⟨"gc",none,.bool⟩]
  | .codegen => [
      helpFlag,
      ⟨"config",some (Text.byte 'c'),.text⟩,
      ⟨"namespace",some (Text.byte 'n'),.text⟩,
      ⟨"output",some (Text.byte 'o'),.text⟩,
      ⟨"file",none,.text⟩,
      ⟨"gc",none,.bool⟩,
      ⟨"backend",none,.text⟩,
      ⟨"plugin",none,.text⟩,
      ⟨"plugin-path",none,.list⟩,
      ⟨"log-level",none,.text⟩,
      ⟨"log-format",none,.text⟩]

/-- What is said on a command line: the values of the flags that are given, and the other
arguments. -/
structure Parsed where
  value? : Text → Option Text
  isSet : Text → Bool
  items? : Text → Option (List Text)
  arguments : List Text

/-- The libraries of the program: those that read settings, write reports, know messages of another
format and write exported names, and the one that reads command lines. -/
structure Library where
  settings : Settings.Readers
  log : Log.Library
  externals : External.Kinds
  casing : Artifact.Casing
  find : List Text → Except Text (Option Name × List Text)
  flags : List Flag → List Text → Except Text Parsed
  usage : Text

structure Outcome where
  status : Nat
  output : Text
  errors : Text
  disk : Disk
  /-- The files that were looked for and not found. -/
  missing : List Text
  deriving Repr

namespace Outcome

def ok (output : Text) (disk : Disk) : Outcome := ⟨0,output,[],disk,[]⟩

def fail (message : Text) (disk : Disk) : Outcome :=
  ⟨1,[],Text.cat ["error: ",message,"\n"],disk,[]⟩

def usage (name : Name) (disk : Disk) : Outcome :=
  ⟨1,[],Text.cat ["usage: steamd ",name.usage,"\n"],disk,[]⟩

def after (report : Text) (o : Outcome) : Outcome := { o with errors := report ++ o.errors }

def lacking (missing : List Text) (o : Outcome) : Outcome := { o with missing }

end Outcome

end WireSchema.Command
