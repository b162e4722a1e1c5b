import MetaFs.Error
import MetaFs.Url.Charset
/-!
The paths of requests, which start at the exported directory and never leave it.
-/

namespace MetaFs.ExportPath

/-- The names that a path text leads through. Empty ones and single dots stand for nothing, and a
step upwards is refused. -/
def names (src : String) : Except Error (List String) :=
  if src.toList.head? ≠ some '/' then .error ⟨.inval, s!"{src}: path is not absolute", none⟩
  else
    let components := (Url.parts (· = '/') src.toList).filter fun c => c ≠ [] && c ≠ ['.']
    if components.contains ['.', '.'] then
      .error ⟨.acces, s!"{src}: path escapes the export", none⟩
    else .ok (components.map String.ofList)

/-- A path text and one more name; a slash goes between them where there is none. -/
def push (path name : String) : String :=
  match path.toList.getLast? with
  | none => name
  | some '/' => path ++ name
  | some _ => path ++ "/" ++ name

/-- Where a path text leads below the exported directory. Only the root may end in a slash, since
names have none. -/
def real (root src : String) : Except Error String := do
  match ← names src with
  | [] => return root
  | first :: rest => return rest.foldl (fun path name => path ++ "/" ++ name) (push root first)

end MetaFs.ExportPath
