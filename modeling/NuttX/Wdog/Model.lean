import NuttX.Os
import NuttX.Lib.DeltaList

/-!
# Watchdog timers

The watchdog timer queue of `sched/wd_*.c`. Active watchdogs sit in the singly linked list
`g_wdactivelist`; each stores only the ticks left after its predecessor (`lag`), so starting a
watchdog splits a lag and cancelling one hands its lag on.

`wd_timer` is split at the one place where it gives up control, the call of the watchdog
function: `NuttX.Wdog.wdTimerTick` is the decrement at its entry, `NuttX.Wdog.wdTimerDue` the
condition of its expiry loop, and `NuttX.Wdog.wdTimerExpire` the loop body up to the call. What
the called function then does to the queue is any sequence of the other operations.

Interrupts are disabled throughout each operation, so each is one step. The lags are `int`, and
the sums of the lags stay below the largest delay, so nothing but the `++delay` of `wd_start`
can overflow; that one is kept.
-/

namespace NuttX

namespace Wdog

/-- The address of a watchdog structure; `none` is the null `WDOG_ID`. -/
abbrev WdogId := ℕ

/-- `struct wdog_s`, less its list link. -/
structure WdogT where
  func : ℕ
  lag : ℤ
  active : Bool
  argc : ℕ
  parm : List ℕ
  deriving DecidableEq, Repr

/-- The watchdog structures and the two lists that link them. -/
structure WdState where
  wdog : WdogId → WdogT
  activeList : List WdogId
  freeList : List WdogId

namespace WdState

variable (s : WdState)

def lag (w : WdogId) : ℤ := (s.wdog w).lag

def setLag (w : WdogId) (v : ℤ) : WdState :=
  { s with wdog := Function.update s.wdog w { s.wdog w with lag := v } }

def setActive (w : WdogId) (b : Bool) : WdState :=
  { s with wdog := Function.update s.wdog w { s.wdog w with active := b } }

/-- Store the function and the parameters. -/
def setCall (w : WdogId) (func argc : ℕ) (parm : List ℕ) : WdState :=
  { s with
    wdog := Function.update s.wdog w
      { s.wdog w with func := func, argc := argc, parm := parm.take argc } }

/-- Add to the lag of the first watchdog of a list, if there is one. -/
def addHeadLag (l : List WdogId) (v : ℤ) : WdState :=
  match l with
  | [] => s
  | n :: _ => s.setLag n (s.lag n + v)

end WdState

def intMax : ℤ := 2147483647

def toInt (x : ℤ) : ℤ := Int.bmod x (2 ^ 32)

/-! ### Cancelling -/

def wdCancel (s : WdState) : Option WdogId → Os (WdState × Status)
  | none => .ok (s, .error)
  | some w =>
    if (s.wdog w).active then
      -- `pre` ends in the watchdog `prev` of the search loop
      match s.activeList.span (fun c => decide (c ≠ w)) with
      | (_, []) => .error (.panic .wdogNotFound)
      | (pre, _ :: post) =>
        .ok (({ s.addHeadLag post (s.lag w) with activeList := pre ++ post }).setActive w false,
          .ok)
    else .ok (s, .error)

/-- Check if the watchdog has been started; if so, stop it. The first part of `wd_start` and of
`wd_delete`. -/
def wdStop (s : WdState) (w : WdogId) : Os WdState :=
  if (s.wdog w).active then Prod.fst <$> wdCancel s (some w) else pure s

/-! ### Starting -/

/-- The watchdogs passed by a search of the queue, the one it stands at, the ones behind, and the
time of the one it stands at. -/
structure Cursor where
  pre : List WdogId
  curr : WdogId
  post : List WdogId
  now : ℤ

/-- `while ((now += curr->lag) < 0 && curr->next)`: advance to positive time. -/
def toPositive (lag : WdogId → ℤ) (pre : List WdogId) (curr : WdogId) (now : ℤ) :
    List WdogId → Cursor
  | [] => ⟨pre, curr, [], now + lag curr⟩
  | n :: post =>
    if now + lag curr < 0 then toPositive lag (pre ++ [curr]) n (now + lag curr) post
    else ⟨pre, curr, n :: post, now + lag curr⟩

/-- `while (now <= delay && curr->next)`: advance past shorter delays. -/
def pastShorter (lag : WdogId → ℤ) (delay : ℤ) (pre : List WdogId) (curr : WdogId) (now : ℤ) :
    List WdogId → Cursor
  | [] => ⟨pre, curr, [], now⟩
  | n :: post =>
    if now ≤ delay then pastShorter lag delay (pre ++ [curr]) n (now + lag n) post
    else ⟨pre, curr, n :: post, now⟩

/-- The place `wd_start` finds in a nonempty queue. -/
def wdSearch (lag : WdogId → ℤ) (delay : ℤ) (head : WdogId) (rest : List WdogId) : Cursor :=
  let c := toPositive lag [] head 0 rest
  pastShorter lag delay c.pre c.curr c.now c.post

/-- Calculate `delay+1`, forcing the delay into a range that can be handled. -/
def wdDelay (delay : ℤ) : ℤ :=
  if delay ≤ 0 then 1
  else if toInt (delay + 1) ≤ 0 then toInt (toInt (delay + 1) - 1)
  else toInt (delay + 1)

/-- The insertion of `wd_start`: the queue, its neighbour's lag and its own lag. -/
def wdInsert (s : WdState) (w : WdogId) (delay : ℤ) : WdState :=
  match s.activeList with
  | [] => ({ s with activeList := [w] }).setLag w delay
  | head :: rest =>
    let c := wdSearch s.lag delay head rest
    if delay < c.now then
      -- the new watchdog must be inserted before `curr`
      let d := delay - (c.now - s.lag c.curr)
      ({ s.setLag c.curr (s.lag c.curr - d) with
          activeList := c.pre ++ w :: c.curr :: c.post }).setLag w d
    else
      let d := delay - c.now
      ({ s.addHeadLag c.post (-d) with activeList := c.pre ++ c.curr :: w :: c.post }).setLag w d

/-- `wd_start`; `maxParms` is `CONFIG_MAX_WDOGPARMS`. -/
def wdStart (maxParms : ℕ) (s : WdState) (wdog : Option WdogId) (delay : ℤ) (func argc : ℕ)
    (parm : List ℕ) : Os (WdState × Status × Errno) :=
  match wdog with
  | none => .ok (s, .error, .einval)
  | some w =>
    if maxParms < argc ∨ delay < 0 then .ok (s, .error, .einval)
    else do
      let s ← wdStop s w
      let s := s.setCall w func argc parm
      pure ((wdInsert s w (wdDelay delay)).setActive w true, .ok, .ok)

/-! ### The other operations -/

def wdDelete (s : WdState) : Option WdogId → Os (WdState × Status × Errno)
  | none => .ok (s, .error, .einval)
  | some w => do
    let s ← wdStop s w
    pure ({ s with freeList := s.freeList ++ [w] }, .ok, .ok)

def wdCreate (s : WdState) : WdState × Option WdogId :=
  match s.freeList with
  | [] => (s, none)
  | w :: free => (({ s with freeList := free }).setActive w false, some w)

/-- The loop of `wd_gettime`: accumulate lag times until the watchdog is found. -/
def sumLags (lag : WdogId → ℤ) (w : WdogId) (delay : ℤ) : List WdogId → ℤ
  | [] => 0
  | c :: l => if c = w then delay + lag c else sumLags lag w (delay + lag c) l

def wdGettime (s : WdState) : Option WdogId → ℤ
  | none => 0
  | some w => if (s.wdog w).active then sumLags s.lag w 0 s.activeList else 0

/-- `wd_timer` at entry: decrement the lag of the head of the queue. -/
def wdTimerTick (s : WdState) : WdState := s.addHeadLag s.activeList (-1)

/-- The condition of the expiry loop of `wd_timer`. -/
def wdTimerDue (s : WdState) : Bool :=
  match s.activeList with
  | [] => false
  | h :: _ => s.lag h ≤ 0

/-- The body of the expiry loop of `wd_timer`, up to the call: the watchdog removed from the head,
whose function is called next. -/
def wdTimerExpire (s : WdState) : WdState × Option WdogId :=
  match s.activeList with
  | [] => (s, none)
  | h :: rest =>
    (({ s.addHeadLag rest (s.lag h) with activeList := rest }).setActive h false, some h)

/-- `wd_initialize` on a pool of watchdogs whose contents are arbitrary. -/
def wdInitialize (pool : List WdogId) (contents : WdogId → WdogT) : WdState :=
  ⟨contents, [], pool⟩

end Wdog

end NuttX
