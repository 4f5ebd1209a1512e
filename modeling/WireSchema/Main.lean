import WireSchema.Command.Line
import WireSchema.Command.Run
set_option autoImplicit false

namespace WireSchema.Command

def bytesOf (t : Text) : ByteArray := ⟨t.toArray⟩

def stringOf (t : Text) : String := (String.fromUTF8? (bytesOf t)).getD ""

def environmentNames : List String :=
  ["STEAMD_LOG_LEVEL","STEAMD_LOG_FORMAT","STEAMD_OUTPUT","STEAMD_PLUGIN_PATH"]

def readEnvironment : IO Settings.Environment :=
  environmentNames.filterMapM fun name => do
    return (← IO.getEnv name).map fun value => (Text.ofString name,Text.ofString value)

partial def readAll (stream : IO.FS.Stream) (read : ByteArray) : IO ByteArray := do
  let more ← stream.read 65536
  if more.isEmpty then return read
  readAll stream (read ++ more)

def readFiles (paths : List Text) : IO (List (Text × Text)) :=
  paths.filterMapM fun path => do
    try
      return some (path,(← IO.FS.readBinFile (stringOf path)).toList)
    catch _ => return none

partial def settle (s : Setting) (tried : List Text) (arguments : List Text) : IO Outcome := do
  let outcome := run .standard (.counting (fun _ _ => false) []) s arguments
  let wanted := outcome.missing.filter fun path => !tried.contains path
  let found ← readFiles wanted
  if found.isEmpty then return outcome
  let files := found.foldl (fun fs (path,content) => fs.put path content) s.files
  settle { s with files } (wanted ++ tried) arguments

def writeFile (path content : Text) : IO Unit := do
  IO.FS.createDirAll (stringOf (Path.directory path))
  IO.FS.writeBinFile (stringOf path) (bytesOf content)

end WireSchema.Command

open WireSchema in
def main (arguments : List String) : IO UInt32 := do
  let arguments := arguments.map Text.ofString
  let input ← if Command.readsInput .standard arguments then
      Command.readAll (← IO.getStdin) .empty
    else pure .empty
  let environment ← Command.readEnvironment
  let outcome ← Command.settle ⟨.empty,input.toList,environment⟩ [] arguments
  for (path,content) in outcome.disk.written do
    Command.writeFile path content
  (← IO.getStdout).write (Command.bytesOf outcome.output)
  (← IO.getStderr).write (Command.bytesOf outcome.errors)
  return outcome.status.toUInt32
