import Mathlib

/-!
# Crashes and status codes

The operating system stops in two ways the model keeps apart from an ordinary return: a failed
`ASSERT` and a `PANIC` with one of the crash codes of `os_internal.h`. Two more constructors stand
for following a null pointer and for writing past the end of an array, which the C code does
without noticing, and the last one for a call of `exit`, from which the caller does not return
either. Every function that can reach one of them lives in `NuttX.Os`; a theorem that such a
function returns `Except.ok` says that no assertion and no panic fires in it.
-/

namespace NuttX

/-- The crash codes of `os_crash_codes_e` that the modelled functions raise. -/
inductive OsErr
  | noIdleTask
  | mqNonEmptyCount
  | mqNotFullCount
  | badWaitSem
  | badDeleteState
  | wdogNotFound
  | badUnblockState
  | badBlockState
  | badReprioritizeState
  deriving DecidableEq, Repr

/-- The ways in which a modelled function does not return. -/
inductive Crash
  | panic (code : OsErr)
  | assert
  | nullDeref
  | overrun
  | exit
  deriving DecidableEq, Repr

/-- A computation of the operating system. -/
abbrev Os (α : Type) := Except Crash α

def osAssert (f : Bool) : Os Unit := if f then .ok () else .error .assert

theorem osAssert_ok {f : Bool} {u : Unit} : osAssert f = .ok u ↔ f = true := by
  cases f <;> simp [osAssert]

/-- The result of a POSIX-style call. -/
inductive Status
  | ok
  | error
  deriving DecidableEq, Repr

/-- The `errno` values the modelled functions store. -/
inductive Errno
  | ok
  | eintr
  | etimedout
  | einval
  | eagain
  | eperm
  | emsgsize
  | edeadlk
  | ebusy
  deriving DecidableEq, Repr

/-! ### Peeling computations apart -/

theorem bind_ok {α β : Type} {x : Os α} {f : α → Os β} {b : β} :
    (x >>= f) = .ok b ↔ ∃ a, x = .ok a ∧ f a = .ok b := by
  cases x with
  | ok a | error e => simp [bind, Except.bind]

theorem toOption_eq_some {α : Type} {x : Os α} {a : α} : x.toOption = some a ↔ x = .ok a := by
  cases x <;> simp [Except.toOption]

theorem ok_bind {α β : Type} (a : α) (f : α → Os β) : ((Except.ok a : Os α) >>= f) = f a := rfl

end NuttX
