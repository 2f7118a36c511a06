/-
Conveyor.Crew.Assignment — which worker of a pool reads which channels.

The channels are dealt out like cards: channel `c` goes to worker
`c % workers`. `countChannels` counts how often each channel was dealt,
and an assignment is complete when every count is one; a pool is only
built from a complete assignment.
-/
import Conveyor.Fault

namespace Conveyor

/-- The channels of each worker, in the order in which it reads them. -/
abbrev Assignment := List (List Nat)

namespace Assignment

/-- Deals `channels` channels out to `workers` workers. -/
def deal (workers channels : Nat) : Assignment :=
  (List.range channels).foldl (fun a c => a.modify (c % workers) (· ++ [c]))
    (List.replicate workers [])

/-- Counts one channel. -/
def countOne (counts : List Nat) (c : Nat) : Checked (List Nat) :=
  if c < counts.length then .ok (counts.modify c (· + 1))
  else .error (.indexOutOfRange c counts.length)

/-- How often each of `total` channels occurs. -/
def countChannels (a : Assignment) (total : Nat) : Checked (List Nat) :=
  a.foldlM (fun counts channels => channels.foldlM countOne counts) (List.replicate total 0)

/-- Passes if every channel below `total` occurs once. -/
def check (a : Assignment) (total : Nat) : Checked Unit := do
  let counts ← a.countChannels total
  if counts.all (· = 1) then return () else throw (.incompleteAssignment total)

end Assignment

end Conveyor
