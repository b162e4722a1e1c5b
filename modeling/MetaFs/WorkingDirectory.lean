import MetaFs.Uri
/-!
The directory that relative names start from.
-/

namespace MetaFs

structure WorkingDirectory where
  uri : Uri
deriving DecidableEq

namespace WorkingDirectory

def text (wd : WorkingDirectory) : String :=
  wd.uri.text

/-- The text and a zero byte after it, if a buffer of so many bytes can hold them. -/
def terminated (size : Nat) (wd : WorkingDirectory) : Except Error (List UInt8) :=
  let bytes := Utf8.encode wd.text.toList
  let needed := bytes.length + 1
  if size < needed then
    .error ⟨.nametoolong, s!"get_working_directory: the buffer supplied was only {size} bytes, " ++
      s!"but we need {needed} bytes to hold the working directory", none⟩
  else .ok (bytes ++ [0])

def set (path : String) (wd : WorkingDirectory) : Except Error WorkingDirectory :=
  match Uri.parse path (some wd.uri) true with
  | .ok uri => .ok ⟨uri⟩
  | .error e => .error (e.prepend "set_working_directory")

/-- The path that a name stands for. A name without a path is the directory itself. -/
def resolve (path : String) (wd : WorkingDirectory) : Except Error String := do
  let uri ← Uri.parse path (some wd.uri) false
  return if uri.path.isEmpty then wd.uri.path else uri.path

end WorkingDirectory

end MetaFs
