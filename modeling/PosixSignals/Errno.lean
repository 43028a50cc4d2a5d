/-!
# Error numbers

The errors a call can fail with. Two of them never leave the kernel as an
`errno`: `unsupported`, and `mustExit`, by which a call tells its caller
that the process has ended and everything running in it should return.
-/

namespace PosixSignals

/-- Why a call failed. -/
inductive Errno where
  | unsupported
  /-- The process has been marked as ended; unwind. -/
  | mustExit
  | perm
  | srch
  | intr
  | child
  | again
  | nomem
  | fault
  | inval
deriving DecidableEq

namespace Errno

def all : List Errno :=
  [unsupported, mustExit, perm, srch, intr, child, again, nomem, fault, inval]

/-- The negative number a call returns. -/
def code : Errno → Int
  | unsupported => -1024
  | mustExit => -1023
  | perm => -1
  | srch => -3
  | intr => -4
  | child => -10
  | again => -11
  | nomem => -12
  | fault => -14
  | inval => -22

/-- The positive number a C program finds in `errno`. -/
def number (e : Errno) : Int := -e.code

def name : Errno → String
  | unsupported => "UNSUPPORTED"
  | mustExit => "BREAK"
  | perm => "EPERM"
  | srch => "ESRCH"
  | intr => "EINTR"
  | child => "ECHILD"
  | again => "EAGAIN"
  | nomem => "ENOMEM"
  | fault => "EFAULT"
  | inval => "EINVAL"

def description : Errno → String
  | unsupported => "Do not support"
  | mustExit => "Process should exit"
  | perm => "Operation not permitted."
  | srch => "No such process."
  | intr => "Interrupted system call."
  | child => "No child process"
  | again => "Try again."
  | nomem => "Out of memory"
  | fault => "Bad address."
  | inval => "Invalid argument."

/-- Name and description in one line. -/
def message (e : Errno) : String := e.name ++ ", " ++ e.description

def ofCode? (n : Int) : Option Errno := all.find? (·.code = n)

def ofName? (s : String) : Option Errno := all.find? (·.name = s)

/-- The message of a return code, whether or not it is one. -/
def messageOfCode (n : Int) : String := ((ofCode? n).map message).getD "Unknown error"

/-- A code and its error name each other. -/
@[simp] theorem ofCode?_code (e : Errno) : ofCode? e.code = some e := by
  cases e <;> decide

end Errno

end PosixSignals
