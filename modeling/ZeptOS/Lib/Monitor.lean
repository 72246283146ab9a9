import Mathlib.Logic.Basic

/-!
# Monitors

Code that runs under a lock: it changes what the lock protects, it waits for a condition on
a channel, which gives the lock up and takes it again, and it wakes those who wait on a
channel. `Monitor.code` is such code as a machine: with the lock held, a local state and
the protected data say what comes next. Loops are loops of this machine.

`Discipline` is what makes waiting on a channel safe. Whoever waits has seen the condition to
be false under the lock, and whoever makes one true *owes* a wakeup of the channel and does
not give up the lock before that is paid. `Asks` is what makes it safe to be killed: whoever
waits has asked before.
-/

namespace ZeptOS.Lib

inductive Act (C K D X : Type) where
  | write (d : D) (x : X)     -- change the data
  | wake (c : C) (x : X)      -- wake everyone who waits on `c`
  | wait (k : K) (x : X)      -- wait for the condition `k`, then go on at `x`
  | check (yes no : X)        -- has this process been killed?
  | done (r : Int)            -- give up the lock and return

/-- Locks `L`, channels `C`, names of conditions `K`, protected data `D`, local states `X`. A
    process may call the code that starts at an `entry`, an interrupt runs a `handler`. -/
structure Monitor where
  L : Type
  C : Type
  K : Type
  D : Type
  X : Type
  [decL : DecidableEq L]
  [decC : DecidableEq C]
  chan : K → C
  entry : L → X → Bool
  handler : L → X → Bool
  code : L → X → D → Act C K D X

instance (M : Monitor) : DecidableEq M.L := M.decL
instance (M : Monitor) : DecidableEq M.C := M.decC

/-- What an act must keep so that no wakeup of `c` is lost: what the code knows of the data
    holds where it goes on, a debt is paid before the lock is given up, making a condition true
    is one, and only a false one is waited for. -/
def Act.Keeps {C K D X : Type} (chan : K → C) (c : C) (cond : K → D → Bool) (owes : X → Bool)
    (knows : X → D → Prop) (x : X) (d : D) : Act C K D X → Prop
  | .write d' x' => knows x' d' ∧ (owes x = true → owes x' = true) ∧
      ∀ k, chan k = c → cond k d = false → cond k d' = true → owes x' = true
  | .wake c' x' => knows x' d ∧ (owes x = true → c' = c ∨ owes x' = true)
  | .wait k x' => (∀ d', knows x' d') ∧ owes x = false ∧ (chan k = c → cond k d = false)
  | .check yes no => knows yes d ∧ knows no d ∧
      (owes x = true → owes yes = true ∧ owes no = true)
  | .done _ => owes x = false

/-- The rules under which no wakeup of a channel is lost. -/
structure Discipline (M : Monitor) (c : M.C) where
  lock : M.L
  cond : M.K → M.D → Bool
  owes : M.X → Bool
  knows : M.X → M.D → Prop
  entry {x : M.X} : M.entry lock x = true ∨ M.handler lock x = true → ∀ d, knows x d
  keeps {x : M.X} {d : M.D} : knows x d →
    (M.code lock x d).Keeps M.chan c cond owes knows x d
  waits {l : M.L} {x x' : M.X} {d : M.D} {k : M.K} :
    M.code l x d = .wait k x' → M.chan k = c → l = lock

/-- What an act must keep so that whoever waits has asked. -/
def Act.Asks {C K D X : Type} (asked : X → Bool) (tests : K → Bool) (x : X) : Act C K D X → Prop
  | .write _ x' => asked x' = true → asked x = true
  | .wake _ x' => asked x' = true → asked x = true
  | .wait k x' => (tests k = true → asked x = true) ∧ asked x' = false
  | .check yes _ => asked yes = false
  | .done _ => True

/-- Code that asks whether the process has been killed before it waits for one of some
    conditions. -/
structure Asks (M : Monitor) where
  asked : M.L → M.X → Bool
  tests : M.K → Bool
  entry {l : M.L} {x : M.X} : M.entry l x = true ∨ M.handler l x = true → asked l x = false
  keeps {l : M.L} {x : M.X} {d : M.D} : (M.code l x d).Asks (asked l) tests x

end ZeptOS.Lib
