import MetaFs.CommandLine
import MetaFs.Export
import MetaFs.Startup
/-!
The server as a program. It exports a file tree that it keeps in memory over one connection: frames
are read from the standard input, and their answers are written to the standard output.
-/

namespace MetaFs.Main

def usage : String :=
  "Usage: metafs [--listing-limit N] [--block-size N] PROTOCOL!ADDRESS!PORT DIRECTORY"

def explain : CommandLine.UsageError → String
  | .missingArgument => "an argument is missing"
  | .unknownArgument => "an argument is not known"
  | .invalidValue => "an argument has no value"
  | .badNumber => "a number is not valid"
  | .repeatedOption => "an option is given twice"
  | .unneededValue => "an option takes no value"
  | .help => "help"

def administrator : List Account :=
  [⟨"root", 0⟩]

def exported (arguments : Arguments) : Export where
  root := Startup.absolute [] arguments.exportDirectory
  listingLimit := arguments.listingLimit
  blockSize := UInt64.ofNat arguments.blockSize
  users := administrator
  groups := administrator

/-- How many more bytes the frame that has begun needs at least. -/
def missing (unread : List UInt8) : Nat :=
  if unread.length < 4 then 4 - unread.length
  else Wire.value (unread.take 4) - unread.length

/-- Serves until the input ends or cannot be read any further. -/
partial def serve (input output : IO.FS.Stream) (ns : Namesystem Tree) (inbox : Server.Inbox)
    (tree : Tree) : IO Unit := do
  if inbox.closed then return
  let bytes ← input.read (USize.ofNat (max 1 (missing inbox.unread)))
  if bytes.isEmpty then return
  let ((frames, next), after) := (Server.serve ns inbox bytes.toList).run tree
  frames.forM fun frame => output.write ⟨frame.toArray⟩
  output.flush
  serve input output ns next after

def start (arguments : Arguments) : IO UInt32 := do
  match (Startup.run {} {} [] arguments).1 with
  | .error e =>
    IO.eprintln s!"Error: {e.shown}"
    return 255
  | .ok tree =>
    IO.eprintln s!"[*] Listing page size: {arguments.listingLimit}"
    IO.eprintln s!"[*] Ready to accept clients: {arguments.address}"
    serve (← IO.getStdin) (← IO.getStdout) (exported arguments).namesystem {} tree
    return 0

end MetaFs.Main

def main (arguments : List String) : IO UInt32 := do
  match MetaFs.CommandLine.parse arguments with
  | .ok parsed => MetaFs.Main.start parsed
  | .error .help =>
    IO.println MetaFs.Main.usage
    return 0
  | .error e =>
    IO.eprintln s!"error: {MetaFs.Main.explain e}"
    IO.eprintln MetaFs.Main.usage
    return 2
