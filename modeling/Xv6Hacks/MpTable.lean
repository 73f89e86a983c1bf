import Xv6Hacks.ByteBuffers

/-!
# The multiprocessor table

`mpinit` walks over the entries of a table that `mpconfig` has accepted. An entry of an unknown
type does not move it on, and nothing keeps the processors within `cpus`.
-/

namespace Xv6Hacks.MpTable

open ByteBuffers

def cpus : Nat := 8

def length (table : Buffer) : Nat := readLE table 4 2

/-- The tests of `mpconfig` on the table that it has found. -/
def mpconfig (table : Buffer) : Bool :=
  (List.range 4).map table == [80, 67, 77, 80] && (table 6 == 1 || table 6 == 4) &&
    ((List.range (length table)).map fun i => (table i).toNat).sum % 256 == 0

structure State where
  ismp : Bool
  ncpu : Nat
  /-- `cpus` was written past its end. -/
  overrun : Bool

def addCpu (apicid : Byte) (s : State) : State where
  ismp := s.ismp && decide (s.ncpu = apicid.toNat)
  ncpu := s.ncpu + 1
  overrun := s.overrun || decide (cpus ≤ s.ncpu)

/-- The types of the entries for buses, I/O APICs and interrupts. -/
def skipped (type : Byte) : Bool := type == 1 || type == 2 || type == 3 || type == 4

def loop (table : Buffer) (last : Nat) : Nat → Nat → State → Option State
  | 0, _, _ => none
  | fuel + 1, p, s =>
    if last ≤ p then some s
    else if table p = 0 then loop table last fuel (p + 20) (addCpu (table (p + 1)) s)
    else if skipped (table p) then loop table last fuel (p + 8) s
    else loop table last fuel p { s with ismp := false }

/-- The value of `ncpu` in the end; without a usable table it is one processor. -/
def ncpuLeft (s : State) : Nat := if s.ismp then s.ncpu else 1

def Safe (table : Buffer) : Prop :=
  ∃ fuel s, loop table (length table) fuel 44 ⟨true, 0, false⟩ = some s ∧ s.overrun = false ∧
    (s.ismp = false ∨ s.ncpu ≠ 0 → 1 ≤ ncpuLeft s ∧ ncpuLeft s ≤ cpus)

/-- From `p` on there are only entries of known types, `n` of them processors. -/
inductive Known (table : Buffer) (last : Nat) : Nat → Nat → Prop
  | done {p : Nat} (past : last ≤ p) : Known table last p 0
  | processor {p n : Nat} (inside : p < last) (type : table p = 0)
      (rest : Known table last (p + 20) n) : Known table last p (n + 1)
  | other {p n : Nat} (inside : p < last) (type : skipped (table p) = true)
      (rest : Known table last (p + 8) n) : Known table last p n

/-- `n` processors were added, the last of them past the end if there are too many. -/
def Added (s final : State) (n : Nat) : Prop :=
  final.ncpu = s.ncpu + n ∧
    (final.overrun = true ↔ s.overrun = true ∨ (0 < n ∧ cpus < s.ncpu + n))

section
variable {table : Buffer} {last fuel p n : Nat} {s final : State}

theorem Added.cpu {apicid : Byte} (added : Added (addCpu apicid s) final n) :
    Added s final (n + 1) := by
  obtain ⟨ncpu, overrun⟩ := added
  simp only [addCpu, Bool.or_eq_true, decide_eq_true_eq] at ncpu overrun
  refine ⟨by omega, ?_⟩
  rw [overrun, or_assoc]
  apply or_congr_right
  omega

theorem loop_known (ended : loop table last fuel p s = some final) :
    ∃ n, Known table last p n ∧ Added s final n := by
  induction fuel generalizing p s with
  | zero => cases ended
  | succ fuel ih =>
    rw [loop] at ended
    split_ifs at ended with past processor other
    · cases ended
      exact ⟨0, .done past, rfl, by simp⟩
    · obtain ⟨n, known, added⟩ := ih ended
      exact ⟨n + 1, .processor (by omega) processor known, added.cpu⟩
    · obtain ⟨n, known, added⟩ := ih ended
      exact ⟨n, .other (by omega) other known, added⟩
    · -- The loop stays where it is, and has to leave from there.
      obtain ⟨n, known, -⟩ := ih ended
      cases known with
      | done past' => exact absurd past' past
      | processor _ type => exact absurd type processor
      | other _ type => exact absurd type other

theorem known_loop (known : Known table last p n) (s : State) :
    ∃ fuel final, loop table last fuel p s = some final ∧ Added s final n := by
  induction known generalizing s with
  | done past => exact ⟨1, s, by rw [loop, if_pos past], rfl, by simp⟩
  | processor inside type rest ih =>
    obtain ⟨fuel, final, ended, added⟩ := ih _
    exact ⟨fuel + 1, final, by rw [loop, if_neg (by omega), if_pos type, ended], added.cpu⟩
  | @other p n inside type rest ih =>
    have plain : table p ≠ 0 := by
      intro zero
      rw [zero] at type
      exact absurd type (by decide)
    obtain ⟨fuel, final, ended, added⟩ := ih s
    refine ⟨fuel + 1, final, ?_, added⟩
    rw [loop, if_neg (by omega), if_neg plain, if_pos type, ended]

end

/-- The table is parsed safely exactly if it holds entries of the known types only, and not
more processors than `cpus`. -/
theorem mp_table_safe_iff (table : Buffer) :
    Safe table ↔ ∃ n, n ≤ cpus ∧ Known table (length table) 44 n := by
  constructor
  · rintro ⟨fuel, s, ended, inside, -⟩
    obtain ⟨n, known, -, overrun⟩ := loop_known ended
    refine ⟨n, ?_, known⟩
    simp [inside] at overrun
    omega
  · rintro ⟨n, few, known⟩
    obtain ⟨fuel, s, ended, ncpu, overrun⟩ := known_loop known ⟨true, 0, false⟩
    refine ⟨fuel, s, ended, ?_, ?_⟩
    · rw [← Bool.not_eq_true, overrun]
      simp [few]
    · intro used
      rw [ncpuLeft]
      split
      next isMp =>
        simp [isMp] at ncpu used
        omega
      next => decide

/-- A table of 45 bytes whose only entry has the type 5. -/
def oddTable (i : Nat) : Byte := if i = 44 then 5 else [80, 67, 77, 80, 45, 0, 1, 157].getD i 0

theorem unknown_type_never_ends : mpconfig oddTable = true ∧ ¬ Safe oddTable := by
  refine ⟨by decide, ?_⟩
  rintro ⟨fuel, s, ended, -⟩
  obtain ⟨n, known, -⟩ := loop_known ended
  cases known with
  | done past => exact absurd past (by decide)
  | processor _ type => exact absurd type (by decide)
  | other _ type => exact absurd type (by decide)

end Xv6Hacks.MpTable
