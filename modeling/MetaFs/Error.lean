import MetaFs.Errno
import MetaFs.Shown
/-!
The error of every operation: a number, a message that grows from the inside out, and the text of
what caused it.
-/

namespace MetaFs

inductive ErrorKind where
  | unsupported
  | invalidArgument
  | notFound
  | alreadyExists
  | outOfMemory
  | nameTooLong
  | internal
deriving DecidableEq, Repr

namespace ErrorKind

def errno : ErrorKind → Errno
  | unsupported => .opnotsupp
  | invalidArgument => .inval
  | notFound => .noent
  | alreadyExists => .exist
  | outOfMemory => .nomem
  | nameTooLong => .nametoolong
  | internal => .io

def ofErrno (code : Errno) : ErrorKind :=
  if code = .opnotsupp then unsupported
  else if code = .inval then invalidArgument
  else if code = .noent ∨ code = .notdir then notFound
  else if code = .exist ∨ code = .notempty then alreadyExists
  else if code = .nomem then outOfMemory
  else if code = .nametoolong then nameTooLong
  else internal

end ErrorKind

structure Error where
  errno : Errno
  message : String
  cause : Option String := none
deriving DecidableEq

namespace Error

def withCause (errno : Errno) (message cause : String) : Error :=
  ⟨errno, message, some cause⟩

/-- A fault of the peer or of the machinery rather than of the request. -/
def internal (message cause : String) : Error :=
  withCause .io message cause

def ofKind (kind : ErrorKind) (message : String) : Error :=
  ⟨kind.errno, message, none⟩

/-- An error that is known by its number alone. -/
def ofErrno (errno : Errno) : Error :=
  ⟨errno, errno.description, none⟩

/-- A failed input or output that has no error number of its own. -/
def ofText (text : String) : Error :=
  withCause .io text text

/-- A failed system call. -/
def ofSystem (number : Int) : Error :=
  let text := systemErrorText number
  withCause (.ofNumber number.toNat) text text

def kind (e : Error) : ErrorKind :=
  .ofErrno e.errno

def prepend (context : String) (e : Error) : Error :=
  { e with message := s!"{context}: {e.message}" }

/-! A context stands in front of the message only. -/

@[simp] theorem errno_prepend (context : String) (e : Error) :
    (e.prepend context).errno = e.errno := rfl

@[simp] theorem cause_prepend (context : String) (e : Error) :
    (e.prepend context).cause = e.cause := rfl

@[simp] theorem message_prepend (context : String) (e : Error) :
    (e.prepend context).message = s!"{context}: {e.message}" := rfl

def prependWithErrno (errno : Errno) (context : String) (e : Error) : Error :=
  { e.prepend context with errno := errno }

def display (e : Error) : String :=
  s!"{e.message} ({e.errno.name}: {e.errno.description})"

def shown (e : Error) : String :=
  Shown.record "Error" <|
    [("code", e.errno.name), ("msg", Quoted.quote e.message)] ++
      (e.cause.map fun text => ("cause", Quoted.quote text)).toList

end Error

end MetaFs
