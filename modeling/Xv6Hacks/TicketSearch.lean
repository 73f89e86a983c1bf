import Xv6Hacks.CumulativeDraw

/-!
# The binary search for a ticket

`binarySearch` takes both ends of a holder's tickets as its own, the linear draw only the lower
one. A running total is thus the ticket of two holders, and the one probed first wins it.
-/

namespace Xv6Hacks.TicketSearch

open CumulativeDraw

/-- In a table neither number is negative, so that the comparisons with the `uint` drawn are
those of the numbers. -/
structure TicketHolder where
  totalTickets : Nat
  runningTotal : Nat

def ticketsBefore (holders : Nat → TicketHolder) (k : Nat) : Nat :=
  ((List.range k).map fun j => (holders j).totalTickets).sum

structure Table (holders : Nat → TicketHolder) (n : Nat) : Prop where
  positive : ∀ k, k < n → 0 < (holders k).totalTickets
  totals : ∀ k, k < n → (holders k).runningTotal = ticketsBefore holders (k + 1)

section
variable {holders : Nat → TicketHolder} {n k random : Nat}

variable (table : Table holders n)
include table

end

end Xv6Hacks.TicketSearch
