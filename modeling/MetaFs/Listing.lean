import MetaFs.Session
/-!
Listing a directory page by page. Each further page is asked for with the last name of the page
before it.
-/

namespace MetaFs

namespace Session

variable {σ : Type}

def listPage (link : Link σ) (path : String) (startAfter : Data) : Over σ Page := do
  let context := s!"list_directory(path={path}, prev={startAfter.lossyText})"
  match ← call link context (.getListing path startAfter false) with
  | .reply (.getListing (some page)) => return page
  | .reply (.getListing none) => fail .noent s!"{context}: no such directory"
  | other => unexpected context other

/-- Collects what is left of a directory after a name, in at most so many pages. The result is
`none` when they were not enough. -/
def listFrom (link : Link σ) (path front : String) :
    Nat → Data → List FileInfo → Over σ (Option (List FileInfo))
  | 0, _, _ => return none
  | pages + 1, startAfter, before => do
    let page ← listPage link path startAfter
    match page.entries.getLast? with
    | none =>
      -- There is no name to go on from.
      if page.remaining = 0 then return some before
      else
        fail .io s!"list_directory({path}): empty page with {page.remaining} entries remaining"
    | some last =>
      let entries := before ++ page.entries.map (FileInfo.ofStatus · front)
      if page.remaining = 0 then return some entries
      else listFrom link path front pages last.path entries

/-- The entries of a directory in the authority's order, named by their URIs. -/
def listDirectory (s : Session) (link : Link σ) (pages : Nat) (given : String) :
    Over σ (Option (List FileInfo)) := do
  let path ← s.path "list_directory" given
  let directory := s.profile.urlPrefix ++ path
  let front := if path.toList.getLast? = some '/' then directory else directory ++ "/"
  listFrom link path front pages {} []

end Session

end MetaFs
