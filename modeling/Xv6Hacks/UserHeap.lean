import Xv6Hacks.CircularWalks
import Xv6Hacks.GuardedRuns

/-!
# The user heap

`malloc` and `free` of the C library: one circular list of free blocks, entered at
`freep`, kept in address order and merged with its neighbours on `free`. The first block
that fits is cut at its end; when none fits, `morecore` asks `sbrk` for a region and frees
it into the list. Addresses are natural numbers: a block lies in a region that `sbrk`
returned, so sums of a block's address and size do not wrap.
-/

namespace Xv6Hacks.UserHeap

open CircularWalks Function

abbrev headerSize : Nat := 8

/-- The two fields of the header at each address, and the allocator's variables. `base` is
the address of the static header, `freep` is 0 before the first call. `regions` and `top`
record what `sbrk` has returned: address and number of bytes of each region, and where the
memory in use ends. -/
structure Mem where
  ptr : Nat → Nat
  size : Nat → Nat
  base : Nat
  freep : Nat
  regions : List (Nat × Nat)
  top : Nat

/-- The loop of `free` leaves at `p`: `bp` lies between `p` and its successor, or beyond
one of the ends of the list. -/
def stops (mem : Mem) (bp p : Nat) : Bool :=
  (decide (p < bp) && decide (bp < mem.ptr p)) ||
    (decide (mem.ptr p ≤ p) && (decide (p < bp) || decide (bp < mem.ptr p)))

/-- `bp` takes over the block behind `p` when it touches it. -/
def joinUpper (mem : Mem) (bp p : Nat) : Mem :=
  if bp + headerSize * mem.size bp = mem.ptr p then
    { mem with
      size := update mem.size bp (mem.size bp + mem.size (mem.ptr p))
      ptr := update mem.ptr bp (mem.ptr (mem.ptr p)) }
  else
    { mem with ptr := update mem.ptr bp (mem.ptr p) }

/-- `p` takes over `bp` when it touches it, and leads to it otherwise. -/
def joinLower (mem : Mem) (bp p : Nat) : Mem :=
  if p + headerSize * mem.size p = bp then
    { mem with
      size := update mem.size p (mem.size p + mem.size bp)
      ptr := update mem.ptr p (mem.ptr bp) }
  else
    { mem with ptr := update mem.ptr p bp }

/-- How often a loop around the list is tried before it counts as endless. -/
def rounds (mem : Mem) : Nat := 2 * mem.top + 4

/-- `none` when the loop does not end. -/
def free (mem : Mem) (ap : Nat) : Option Mem :=
  let bp := ap - headerSize
  (seek mem.ptr (stops mem bp) (rounds mem) mem.freep).map fun p =>
    { joinLower (joinUpper mem bp p) bp p with freep := p }

/-- The answer of one `sbrk` call to the end of the memory so far and the bytes wanted. -/
abbrev Sbrk : Type := Nat → Nat → Option Nat

/-- The new memory and `freep`, or 0 when `sbrk` failed. -/
def morecore (sbrk : Sbrk) (mem : Mem) (nu : Nat) : Option (Mem × Nat) :=
  let nu := if nu < 4096 then 4096 else nu
  let bytes := nu * headerSize % 2 ^ 32
  match sbrk mem.top bytes with
  | none => some (mem, 0)
  | some p =>
    let mem := { mem with
      regions := (p, bytes) :: mem.regions
      top := p + bytes
      size := update mem.size p nu }
    (free mem (p + headerSize)).map fun mem => (mem, mem.freep)

/-- The block `p` behind `prevp` is handed out, whole or its last `nunits` units. -/
def take (mem : Mem) (nunits prevp p : Nat) : Mem × Nat :=
  if mem.size p = nunits then
    ({ mem with ptr := update mem.ptr prevp (mem.ptr p), freep := prevp }, p + headerSize)
  else
    let rest := mem.size p - nunits
    let tail := p + headerSize * rest
    ({ mem with
        size := update (update mem.size p rest) tail nunits
        freep := prevp },
      tail + headerSize)

def search (sbrk : Sbrk) (nunits : Nat) : Nat → Mem → Nat → Nat → Option (Mem × Nat)
  | 0, _, _, _ => none
  | fuel + 1, mem, prevp, p =>
    if nunits ≤ mem.size p then some (take mem nunits prevp p)
    else if p = mem.freep then
      (morecore sbrk mem nunits).bind fun grown =>
        if grown.2 = 0 then some (grown.1, 0)
        else search sbrk nunits fuel grown.1 grown.2 (grown.1.ptr grown.2)
    else search sbrk nunits fuel mem p (mem.ptr p)

/-- The units of a block with a header and `nbytes` bytes, in 32-bit arithmetic. -/
def unitsFor (nbytes : Nat) : Nat :=
  (nbytes + headerSize - 1) % 2 ^ 32 / headerSize + 1

def initialise (mem : Mem) : Mem :=
  { mem with
    ptr := update mem.ptr mem.base mem.base
    size := update mem.size mem.base 0
    freep := mem.base }

def malloc (sbrk : Sbrk) (mem : Mem) (nbytes : Nat) : Option (Mem × Nat) :=
  let mem := if mem.freep = 0 then initialise mem else mem
  search sbrk (unitsFor nbytes) (rounds mem) mem mem.freep (mem.ptr mem.freep)

/-- A stretch of memory that starts with a header. -/
structure Span where
  addr : Nat
  units : Nat
deriving DecidableEq, Repr

structure Block extends Span where
  nbytes : Nat
deriving DecidableEq, Repr

def Block.pointer (block : Block) : Nat := block.addr + headerSize

structure State where
  mem : Mem
  live : List Block

inductive Action where
  | malloc (nbytes : Nat) (sbrk : Sbrk)
  | free (ap : Nat)

/-- One call. A pointer that is not live is never freed; `none` otherwise means that the
call does not return. -/
def step (state : State) : Action → Option State
  | .malloc nbytes sbrk =>
    (malloc sbrk state.mem nbytes).map fun (mem, p) =>
      if p = 0 then { state with mem := mem }
      else
        let addr := p - headerSize
        { mem := mem, live := ⟨⟨addr, mem.size addr⟩, nbytes⟩ :: state.live }
  | .free ap =>
    match state.live.find? fun block => block.pointer = ap with
    | none => none
    | some block =>
      (free state.mem ap).map fun mem =>
        { mem := mem, live := state.live.erase block }

/-- For a positive `int`, `sbrk` fails or returns a region above all earlier ones. -/
def Sbrk.Fresh (sbrk : Sbrk) : Prop :=
  ∀ top bytes p, 0 < bytes → bytes < 2 ^ 31 → sbrk top bytes = some p → top ≤ p

/-- The requests whose sizes do not overflow. -/
def Permitted (_ : State) : Action → Prop
  | .malloc nbytes sbrk => nbytes < 2 ^ 31 - 4096 * headerSize ∧ sbrk.Fresh
  | .free _ => True

/-- Before the first call: the static header lies below the heap. -/
structure Start (state : State) : Prop where
  unset : state.mem.freep = 0
  base : 0 < state.mem.base
  below : state.mem.base + headerSize ≤ state.mem.top
  regions : state.mem.regions = []
  live : state.live = []

def Span.finish (span : Span) : Nat := span.addr + headerSize * span.units

def Span.Has (span : Span) (x : Nat) : Prop := span.addr ≤ x ∧ x < span.finish

def Covered (spans : List Span) (x : Nat) : Prop := ∃ span ∈ spans, span.Has x

/-- The links lead through `nodes` and back to the first one, which is the static header.
Between two free blocks something is missing: they have been merged otherwise. -/
structure FreeList (mem : Mem) (nodes : List Span) : Prop where
  head : nodes.head? = some ⟨mem.base, 0⟩
  closed : Closed mem.ptr (nodes.map Span.addr)
  sizes : ∀ node ∈ nodes, mem.size node.addr = node.units
  spaced : nodes.Pairwise fun lower upper => lower.finish < upper.addr
  filled : ∀ node ∈ nodes, node.addr ≠ mem.base → 0 < node.units
  entry : mem.freep ∈ nodes.map Span.addr
  below : ∀ node ∈ nodes, node.addr < mem.top

variable {mem : Mem} {nodes : List Span}

theorem finish_eq (span : Span) : span.finish = span.addr + 8 * span.units := rfl

theorem Span.addr_le_finish (span : Span) : span.addr ≤ span.finish := Nat.le_add_right ..

section
variable (list : FreeList mem nodes)
include list

theorem FreeList.sorted : (nodes.map Span.addr).Pairwise (· < ·) := by
  rw [List.pairwise_map]
  apply list.spaced.imp
  intro lower upper spaced
  exact lower.addr_le_finish.trans_lt spaced

theorem FreeList.base_le {a : Nat} (member : a ∈ nodes.map Span.addr) : mem.base ≤ a := by
  obtain ⟨rest, rfl⟩ := List.head?_eq_some_iff.mp list.head
  rcases List.mem_cons.mp member with rfl | later
  · exact le_rfl
  · exact ((List.pairwise_cons.mp list.sorted).1 a later).le

theorem FreeList.length_le : nodes.length ≤ mem.top := by
  have distinct : (nodes.map Span.addr).Nodup := list.sorted.imp fun less => less.ne
  have within : nodes.map Span.addr ⊆ List.range mem.top := by
    intro a member
    obtain ⟨node, inList, rfl⟩ := List.mem_map.mp member
    exact List.mem_range.mpr (list.below node inList)
  have bound := (List.subperm_of_subset distinct within).length_le
  rw [List.length_map, List.length_range] at bound
  exact bound

variable {left right : List Span}

theorem FreeList.around {node : Span} (split : nodes = left ++ node :: right) :
    Walk mem.ptr (node.addr :: ((right ++ left).map Span.addr ++ [node.addr])) := by
  have closed := list.closed
  rw [split, List.map_append, List.map_cons] at closed
  rw [List.map_append]
  exact closed.rotate

theorem FreeList.next {node : Span} (split : nodes = left ++ node :: right) :
    (∃ second behind, right = second :: behind ∧ mem.ptr node.addr = second.addr) ∨
    (right = [] ∧ mem.ptr node.addr = mem.base) := by
  have around := list.around split
  cases right with
  | cons second behind => exact .inl ⟨second, behind, rfl, (List.isChain_cons_cons.mp around).1⟩
  | nil =>
    have head := list.head
    refine .inr ⟨rfl, ?_⟩
    cases left with
    | nil =>
      rw [split, List.nil_append, List.head?_cons, Option.some.injEq] at head
      rw [(List.isChain_cons_cons.mp around).1, head]
    | cons first left =>
      rw [split, List.cons_append, List.head?_cons, Option.some.injEq] at head
      rw [(List.isChain_cons_cons.mp around).1, head]

theorem FreeList.successor {a : Nat} (member : a ∈ nodes.map Span.addr) :
    (a < mem.ptr a ∧ mem.ptr a ∈ nodes.map Span.addr ∧
    ∀ b ∈ nodes.map Span.addr, b ≤ a ∨ mem.ptr a ≤ b) ∨
    (mem.ptr a = mem.base ∧ ∀ b ∈ nodes.map Span.addr, b ≤ a) := by
  obtain ⟨node, inList, rfl⟩ := List.mem_map.mp member
  obtain ⟨left, right, split⟩ := List.append_of_mem inList
  have sorted := list.sorted
  rw [split, List.map_append, List.map_cons] at sorted
  obtain ⟨-, ahead, before⟩ := List.pairwise_append.mp sorted
  have lower : ∀ b ∈ left.map Span.addr, b < node.addr :=
    fun b inLeft => before b inLeft _ (.head _)
  rcases list.next split with ⟨second, behind, rfl, leads⟩ | ⟨rfl, leads⟩
  · left
    obtain ⟨above, tail⟩ := List.pairwise_cons.mp ahead
    rw [leads, split, List.map_append, List.map_cons, List.map_cons]
    refine ⟨above _ (.head _), by simp, ?_⟩
    intro b inNodes
    rcases List.mem_append.mp inNodes with early | late
    · exact .inl (lower b early).le
    · rcases List.mem_cons.mp late with rfl | later
      · exact .inl le_rfl
      · rcases List.mem_cons.mp later with rfl | last
        · exact .inr le_rfl
        · exact .inr ((List.pairwise_cons.mp tail).1 b last).le
  · right
    refine ⟨leads, ?_⟩
    intro b inNodes
    rw [split, List.map_append] at inNodes
    rcases List.mem_append.mp inNodes with early | here
    · exact (lower b early).le
    · exact (List.mem_singleton.mp here).le

theorem FreeList.base_units {node : Span} (member : node ∈ nodes)
    (base : node.addr = mem.base) : node.units = 0 := by
  obtain ⟨rest, shape⟩ := List.head?_eq_some_iff.mp list.head
  rw [← list.sizes node member, base]
  exact list.sizes ⟨mem.base, 0⟩ (shape ▸ List.mem_cons_self)

theorem FreeList.others {node : Span}
    (split : nodes = left ++ node :: right) : ∀ other ∈ right ++ left, other.addr ≠ node.addr := by
  have sorted := list.sorted
  rw [split, List.map_append, List.map_cons] at sorted
  obtain ⟨-, ahead, before⟩ := List.pairwise_append.mp sorted
  intro other member
  rcases List.mem_append.mp member with late | early
  · exact ((List.pairwise_cons.mp ahead).1 _ (List.mem_map_of_mem late)).ne'
  · exact (before _ (List.mem_map_of_mem early) _ (.head _)).ne

theorem FreeList.behind {node other : Span} (split : nodes = left ++ node :: right)
    (late : other ∈ right) : other ∈ nodes ∧ 0 < other.units := by
  have member : other ∈ nodes := by simp [split, late]
  have first : mem.base ≤ node.addr := list.base_le (by simp [split])
  have sorted := list.sorted
  rw [split, List.map_append, List.map_cons] at sorted
  have ahead := (List.pairwise_cons.mp (List.pairwise_append.mp sorted).2.1).1 _
    (List.mem_map_of_mem late)
  exact ⟨member, list.filled other member (by omega)⟩

end

/-- The block lies between `node` and the nodes `right` behind it. -/
structure Place (nodes left : List Span) (node : Span) (right : List Span) (block : Span) :
    Prop where
  split : nodes = left ++ node :: right
  lower : node.finish ≤ block.addr
  start : node.addr < block.addr
  upper : ∀ other ∈ right, block.finish ≤ other.addr
  ahead : ∀ other ∈ right, block.addr < other.addr

theorem exists_split_below (bound : Nat) (nodes : List Span)
    (some : ∃ node ∈ nodes, node.addr < bound) (none : ∀ node ∈ nodes, node.addr ≠ bound) :
    ∃ left node right, nodes = left ++ node :: right ∧ node.addr < bound ∧
    ∀ other ∈ right, bound < other.addr := by
  induction nodes with
  | nil =>
    obtain ⟨node, member, -⟩ := some
    exact absurd member List.not_mem_nil
  | cons first rest ih =>
    by_cases later : ∃ node ∈ rest, node.addr < bound
    · obtain ⟨left, node, right, split, below, above⟩ :=
        ih later fun node member => none node (.tail first member)
      exact ⟨first :: left, node, right, by rw [split]; rfl, below, above⟩
    · refine ⟨[], first, rest, rfl, ?_, ?_⟩
      · obtain ⟨node, member, below⟩ := some
        rcases List.mem_cons.mp member with rfl | inRest
        · exact below
        · exact absurd ⟨node, inRest, below⟩ later
      · intro other member
        have different := none other (.tail first member)
        have above : ¬ other.addr < bound := fun below => later ⟨other, member, below⟩
        omega

theorem side_by_side {one other : Span} (filled : 0 < one.units) (more : 0 < other.units)
    (apart : ∀ x, one.Has x → ¬ other.Has x) :
    one.finish ≤ other.addr ∨ other.finish ≤ one.addr := by
  by_contra overlap
  rw [finish_eq, finish_eq] at overlap
  by_cases order : one.addr ≤ other.addr
  · apply apart other.addr <;> simp only [Span.Has, finish_eq] <;> omega
  · apply apart one.addr <;> simp only [Span.Has, finish_eq] <;> omega

/-- What the caller of `free` promises about the block. -/
structure Returned (mem : Mem) (nodes : List Span) (block : Span) : Prop where
  header : mem.size block.addr = block.units
  filled : 0 < block.units
  above : mem.base < block.addr
  below : block.addr < mem.top
  apart : ∀ x, block.Has x → ¬ Covered nodes x

theorem FreeList.place (list : FreeList mem nodes) {block : Span}
    (returned : Returned mem nodes block) :
    ∃ left node right, Place nodes left node right block := by
  have beside : ∀ node ∈ nodes, node.addr ≠ mem.base →
      node.finish ≤ block.addr ∨ block.finish ≤ node.addr := by
    intro node member other
    apply side_by_side (list.filled node member other) returned.filled
    intro x inNode inBlock
    exact returned.apart x inBlock ⟨node, member, inNode⟩
  have filled := returned.filled
  have above := returned.above
  have reach : block.addr < block.finish := by
    rw [finish_eq]
    omega
  obtain ⟨rest, shape⟩ := List.head?_eq_some_iff.mp list.head
  have first : (⟨mem.base, 0⟩ : Span) ∈ nodes := shape ▸ List.mem_cons_self
  have different : ∀ node ∈ nodes, node.addr ≠ block.addr := by
    intro node member same
    have other : node.addr ≠ mem.base := by omega
    have room := list.filled node member other
    rcases beside node member other with before | behind
    · rw [finish_eq] at before
      omega
    · omega
  obtain ⟨left, node, right, split, start, ahead⟩ :=
    exists_split_below block.addr nodes ⟨_, first, above⟩ different
  refine ⟨left, node, right, split, ?_, start, ?_, ahead⟩
  · have member : node ∈ nodes := split ▸ (by simp)
    by_cases base : node.addr = mem.base
    · rw [finish_eq, list.base_units member base]
      omega
    · rcases beside node member base with before | behind
      · exact before
      · omega
  · intro other inRight
    have member : other ∈ nodes := split ▸ (by simp [inRight])
    have later := ahead other inRight
    rcases beside other member (by omega) with before | behind
    · have := other.addr_le_finish
      omega
    · exact behind

theorem FreeList.seek_place (list : FreeList mem nodes) {left right : List Span} {node block : Span}
    (returned : Returned mem nodes block) (place : Place nodes left node right block) :
    seek mem.ptr (stops mem block.addr) (rounds mem) mem.freep = some node.addr := by
  obtain ⟨before, behind, split⟩ := List.append_of_mem list.entry
  have closed := list.closed
  rw [split] at closed
  have around : Walk mem.ptr (mem.freep :: (behind ++ before ++ [mem.freep])) := closed.rotate
  have same : ∀ a, a ∈ mem.freep :: (behind ++ before) ↔ a ∈ nodes.map Span.addr := by
    intro a
    rw [split]
    simp only [List.mem_cons, List.mem_append]
    tauto
  have member : node.addr ∈ nodes.map Span.addr := by
    rw [place.split]
    simp
  have start := place.start
  have above := returned.above
  -- every node is at or before `node`, or behind the block
  have sides : ∀ a ∈ nodes.map Span.addr, a ≤ node.addr ∨ block.addr < a := by
    intro a inList
    have sorted := list.sorted
    rw [place.split, List.map_append, List.map_cons] at inList sorted
    rcases List.mem_append.mp inList with early | late
    · exact .inl ((List.pairwise_append.mp sorted).2.2 a early _ (.head _)).le
    · rcases List.mem_cons.mp late with rfl | last
      · exact .inl le_rfl
      · obtain ⟨other, inRight, rfl⟩ := List.mem_map.mp last
        exact .inr (place.ahead other inRight)
  apply seek_finds around ((same _).mpr member)
  · simp only [stops, Bool.or_eq_true, Bool.and_eq_true, decide_eq_true_eq]
    rcases list.successor member with ⟨later, inList, -⟩ | ⟨wraps, -⟩
    · rcases sides _ inList with early | behindBlock
      · omega
      · exact .inl ⟨start, behindBlock⟩
    · have first := list.base_le member
      exact .inr ⟨by omega, .inl start⟩
  · intro a inWalk stopped
    have inList := (same a).mp inWalk
    simp only [stops, Bool.or_eq_true, Bool.and_eq_true, decide_eq_true_eq] at stopped
    have here := sides a inList
    rcases list.successor inList with ⟨later, -, between⟩ | ⟨wraps, highest⟩
    · have compare := between node.addr member
      omega
    · have compare := highest node.addr member
      omega
  · have bound := list.length_le
    have length := congrArg List.length split
    simp only [List.length_map, List.length_append, List.length_cons] at length ⊢
    rw [rounds]
    omega

theorem Returned.not_mem {block : Span} (returned : Returned mem nodes block)
    (list : FreeList mem nodes) : block.addr ∉ nodes.map Span.addr := by
  intro member
  obtain ⟨node, inList, same⟩ := List.mem_map.mp member
  have above := returned.above
  have filled := list.filled node inList (by omega)
  have more := returned.filled
  apply returned.apart block.addr
  · simp only [Span.Has, finish_eq]
    omega
  · refine ⟨node, inList, ?_⟩
    simp only [Span.Has, finish_eq]
    omega

structure Frame (mem after : Mem) : Prop where
  base : after.base = mem.base
  regions : after.regions = mem.regions
  top : after.top = mem.top

/-- After `joinUpper`: the block, grown by the node behind it when they touched, leads
over `rest` and `left` to `node`. -/
structure Joined (mem after : Mem) (left : List Span) (node : Span) (right : List Span)
    (block grown : Span) (rest : List Span) : Prop where
  frame : Frame mem after
  addr : grown.addr = block.addr
  walk : Walk after.ptr (block.addr :: ((rest ++ left).map Span.addr ++ [node.addr]))
  header : after.size block.addr = grown.units
  same : ∀ a, a ≠ block.addr → after.size a = mem.size a
  room : block.units ≤ grown.units
  kept : ∀ other ∈ rest, other ∈ right ∧ grown.finish < other.addr
  spaced : rest.Pairwise fun lower upper => lower.finish < upper.addr
  shorter : rest.length ≤ right.length
  covered : ∀ x, Covered rest x ∨ grown.Has x ↔ Covered right x ∨ block.Has x

variable {left right : List Span} {node block : Span}

theorem covered_cons (span : Span) (spans : List Span) (x : Nat) :
    Covered (span :: spans) x ↔ span.Has x ∨ Covered spans x := by
  simp [Covered]

theorem covered_append (one other : List Span) (x : Nat) :
    Covered (one ++ other) x ↔ Covered one x ∨ Covered other x := by
  simp only [Covered, List.mem_append, or_and_right, exists_or]

theorem has_merged {one other : Span} (touch : one.finish = other.addr) (x : Nat) :
    Span.Has ⟨one.addr, one.units + other.units⟩ x ↔ one.Has x ∨ other.Has x := by
  rw [finish_eq] at touch
  simp only [Span.Has, finish_eq]
  omega

theorem joinUpper_spec (list : FreeList mem nodes) (returned : Returned mem nodes block)
    (place : Place nodes left node right block) :
    ∃ grown rest, Joined mem (joinUpper mem block.addr node.addr) left node right block
    grown rest := by
  have around := list.around place.split
  have next := list.next place.split
  have spaced := list.spaced
  rw [place.split] at spaced
  obtain ⟨-, ordered, -⟩ := List.pairwise_append.mp spaced
  obtain ⟨-, ordered⟩ := List.pairwise_cons.mp ordered
  have absent : ∀ spans : List Span, (∀ span ∈ spans, span ∈ right ++ left) →
      block.addr ∉ (spans.map Span.addr ++ [node.addr]).dropLast := by
    intro spans within
    rw [List.dropLast_concat]
    intro inSpans
    obtain ⟨other, isSpan, same⟩ := List.mem_map.mp inSpans
    apply returned.not_mem list
    rw [← same, place.split]
    apply List.mem_map_of_mem
    have one := within other isSpan
    simp only [List.mem_append, List.mem_cons] at one ⊢
    tauto
  rw [joinUpper, returned.header]
  by_cases touch : block.addr + headerSize * block.units = mem.ptr node.addr
  · rw [if_pos touch]
    rcases next with ⟨second, behind, rfl, leads⟩ | ⟨-, leads⟩
    · have tail := (List.isChain_cons_cons.mp around).2
      have size : mem.size second.addr = second.units :=
        list.sizes second (by rw [place.split]; simp)
      obtain ⟨first, ordered⟩ := List.pairwise_cons.mp ordered
      rw [leads] at touch ⊢
      have reach : block.finish = second.addr := touch
      refine ⟨⟨block.addr, block.units + second.units⟩, behind, ⟨rfl, rfl, rfl⟩, rfl, ?_, ?_,
        ?_, Nat.le_add_right .., ?_, ordered, Nat.le_succ _, ?_⟩
      · apply walk_redirect tail
        apply absent
        intro span inSpans
        exact .tail second inSpans
      · dsimp only
        rw [update_self, size]
      · intro a other
        exact update_of_ne other ..
      · intro other inRest
        refine ⟨.tail second inRest, ?_⟩
        have gap := first other inRest
        rw [finish_eq] at gap reach ⊢
        dsimp only
        omega
      · intro x
        rw [has_merged reach, covered_cons]
        tauto
    · have above := returned.above
      omega
  · rw [if_neg touch]
    refine ⟨block, right, ⟨rfl, rfl, rfl⟩, rfl, ?_, returned.header, fun _ _ => rfl,
      le_rfl, ?_, ordered, le_rfl, fun x => .rfl⟩
    · apply walk_redirect around
      exact absent _ fun span inSpans => inSpans
    · intro other inRight
      refine ⟨inRight, ?_⟩
      have apart : block.finish ≠ mem.ptr node.addr := touch
      rcases next with ⟨second, behind, rfl, leads⟩ | ⟨rfl, -⟩
      · have reach := place.upper second (.head _)
        rcases List.mem_cons.mp inRight with rfl | later
        · omega
        · have gap := (List.pairwise_cons.mp ordered).1 other later
          have := second.addr_le_finish
          omega
      · exact absurd inRight List.not_mem_nil

/-- The list from `node` on is replaced: by a node at the same address with `units` units
and the nodes `tail`. The list is entered there from now on. -/
theorem FreeList.replace (list : FreeList mem nodes) (split : nodes = left ++ node :: right)
    {after : Mem} (frame : Frame mem after) {units : Nat} {tail : List Span}
    (base : node.addr = mem.base → units = 0) (grown : node.units ≤ units)
    (walk : Walk after.ptr (node.addr :: ((tail ++ left).map Span.addr ++ [node.addr])))
    (same : ∀ other ∈ left, after.size other.addr = mem.size other.addr)
    (sizes : ∀ other ∈ Span.mk node.addr units :: tail, after.size other.addr = other.units)
    (spaced : (Span.mk node.addr units :: tail).Pairwise fun lower upper =>
    lower.finish < upper.addr) (filled : ∀ other ∈ tail, 0 < other.units)
    (below : ∀ other ∈ tail, other.addr < mem.top) (entry : after.freep = node.addr) :
    FreeList after (left ++ Span.mk node.addr units :: tail) := by
  have inLeft : ∀ other ∈ left, other ∈ nodes := fun other early => by simp [split, early]
  have inNodes : node ∈ nodes := by simp [split]
  have before := list.spaced
  rw [split] at before
  obtain ⟨earlier, -, cross⟩ := List.pairwise_append.mp before
  constructor
  case head =>
    have head := list.head
    rw [split] at head
    cases left with
    | nil =>
      rw [List.nil_append, List.head?_cons, Option.some.injEq] at head
      have first : node.addr = mem.base := by rw [head]
      rw [List.nil_append, List.head?_cons, base first, first, frame.base]
    | cons first left =>
      rw [frame.base]
      exact head
  case closed =>
    have closed : Closed after.ptr ((node.addr :: tail.map Span.addr) ++ left.map Span.addr) := by
      rw [List.map_append] at walk
      exact walk
    rw [List.map_append, List.map_cons]
    exact closed.rotate
  case sizes =>
    intro other member
    rcases List.mem_append.mp member with early | late
    · rw [same other early]
      exact list.sizes other (inLeft other early)
    · exact sizes other late
  case spaced =>
    refine List.pairwise_append.mpr ⟨earlier, spaced, ?_⟩
    intro low isLow high isHigh
    have first : low.finish < node.addr := cross low isLow node (.head _)
    rcases List.mem_cons.mp isHigh with rfl | later
    · exact first
    · have above := (List.pairwise_cons.mp spaced).1 high later
      rw [finish_eq] at above
      dsimp only at above
      omega
  case filled =>
    intro other member different
    rw [frame.base] at different
    rcases List.mem_append.mp member with early | late
    · exact list.filled other (inLeft other early) different
    · rcases List.mem_cons.mp late with rfl | later
      · exact (list.filled node inNodes different).trans_le grown
      · exact filled other later
  case entry =>
    rw [entry]
    simp
  case below =>
    intro other member
    rw [frame.top]
    rcases List.mem_append.mp member with early | late
    · exact list.below other (inLeft other early)
    · rcases List.mem_cons.mp late with rfl | later
      · exact list.below node inNodes
      · exact below other later

/-- The block is in the list, on its own or as part of a larger one. -/
structure Inserted (mem after : Mem) (nodes : List Span) (block : Span) (merged : List Span) :
    Prop where
  frame : Frame mem after
  list : FreeList after merged
  covered : ∀ x, Covered merged x ↔ Covered nodes x ∨ block.Has x
  room : ∃ node ∈ merged, block.units ≤ node.units
  length : merged.length ≤ nodes.length + 1
  sizes : ∀ a, a ∉ nodes.map Span.addr → a ≠ block.addr → after.size a = mem.size a

theorem Returned.apart_addr (returned : Returned mem nodes block) (list : FreeList mem nodes)
    {other : Span} (member : other ∈ nodes) : other.addr ≠ block.addr := by
  intro same
  exact returned.not_mem list (same ▸ List.mem_map_of_mem member)

section Lower
variable {joined : Mem} {grown : Span} {rest : List Span}

section
variable (upper : Joined mem joined left node right block grown rest)
include upper

section
variable (list : FreeList mem nodes)
include list

theorem Joined.size_eq (returned : Returned mem nodes block) {other : Span}
    (member : other ∈ nodes) : joined.size other.addr = other.units := by
  rw [upper.same _ (returned.apart_addr list member)]
  exact list.sizes other member

theorem Joined.others (place : Place nodes left node right block) :
    ∀ other ∈ rest ++ left, other.addr ≠ node.addr := by
  intro other member
  apply list.others place.split
  rcases List.mem_append.mp member with late | early
  · exact List.mem_append_left left (upper.kept other late).1
  · exact List.mem_append_right right early

theorem Joined.around (place : Place nodes left node right block) :
    node.addr ∉ (rest ++ left).map Span.addr := by
  intro member
  obtain ⟨other, inBoth, same⟩ := List.mem_map.mp member
  exact upper.others list place other inBoth same

theorem Joined.absorbed (returned : Returned mem nodes block)
    (place : Place nodes left node right block) (touch : node.finish = grown.addr) : Inserted mem
      { joined with
        size := update joined.size node.addr (node.units + grown.units)
        ptr := update joined.ptr node.addr (joined.ptr block.addr)
        freep := node.addr }
      nodes block (left ++ ⟨node.addr, node.units + grown.units⟩ :: rest) := by
  have isNode : node ∈ nodes := by simp [place.split]
  have others := upper.others list place
  have frame : Frame mem joined := upper.frame
  constructor
  case frame => exact ⟨frame.base, frame.regions, frame.top⟩
  case list =>
    apply list.replace place.split
    case frame => exact ⟨frame.base, frame.regions, frame.top⟩
    case base =>
      intro base
      have above := returned.above
      rw [finish_eq, list.base_units isNode base, base, upper.addr] at touch
      omega
    case grown => exact Nat.le_add_right ..
    case walk =>
      apply walk_redirect upper.walk
      rw [List.dropLast_concat]
      exact upper.around list place
    case same =>
      intro other early
      have member : other ∈ nodes := by simp [place.split, early]
      have different := others other (List.mem_append_right rest early)
      rw [← upper.same _ (returned.apart_addr list member)]
      exact update_of_ne different ..
    case sizes =>
      intro other member
      rcases List.mem_cons.mp member with rfl | late
      · exact update_self ..
      · have inNodes := (list.behind place.split (upper.kept other late).1).1
        have different := others other (List.mem_append_left left late)
        rw [← upper.size_eq list returned inNodes]
        exact update_of_ne different ..
    case spaced =>
      refine List.pairwise_cons.mpr ⟨?_, upper.spaced⟩
      intro other late
      have gap := (upper.kept other late).2
      rw [finish_eq] at gap touch ⊢
      dsimp only
      omega
    case filled =>
      intro other late
      exact (list.behind place.split (upper.kept other late).1).2
    case below =>
      intro other late
      exact list.below other (list.behind place.split (upper.kept other late).1).1
    case entry => rfl
  case covered =>
    intro x
    have both := upper.covered x
    rw [place.split, covered_append, covered_append, covered_cons, covered_cons, has_merged touch]
    tauto
  case room =>
    refine ⟨_, List.mem_append_right left (.head _), ?_⟩
    exact upper.room.trans (Nat.le_add_left ..)
  case length =>
    have shorter := upper.shorter
    simp only [place.split, List.length_append, List.length_cons]
    omega
  case sizes =>
    intro a absent different
    rw [← upper.same a different]
    apply update_of_ne
    rintro rfl
    exact absent (List.mem_map_of_mem isNode)

theorem Joined.linked (returned : Returned mem nodes block)
    (place : Place nodes left node right block) (gap : node.finish ≠ grown.addr) : Inserted mem
      { joined with ptr := update joined.ptr node.addr block.addr, freep := node.addr }
      nodes block (left ++ node :: grown :: rest) := by
  have isNode : node ∈ nodes := by simp [place.split]
  have frame : Frame mem joined := upper.frame
  constructor
  case frame => exact ⟨frame.base, frame.regions, frame.top⟩
  case list =>
    apply list.replace place.split
    case frame => exact ⟨frame.base, frame.regions, frame.top⟩
    case base => exact list.base_units isNode
    case grown => exact le_rfl
    case walk =>
      rw [List.cons_append, List.map_cons, List.cons_append, upper.addr]
      apply walk_into upper.walk
      rw [← List.cons_append, List.dropLast_concat]
      intro member
      rcases List.mem_cons.mp member with here | around
      · exact returned.apart_addr list isNode here
      · exact upper.around list place around
    case same =>
      intro other early
      have member : other ∈ nodes := by simp [place.split, early]
      exact upper.same _ (returned.apart_addr list member)
    case sizes =>
      intro other member
      rcases List.mem_cons.mp member with rfl | later
      · exact upper.size_eq list returned isNode
      · rcases List.mem_cons.mp later with rfl | late
        · rw [upper.addr]
          exact upper.header
        · exact upper.size_eq list returned (list.behind place.split (upper.kept other late).1).1
    case spaced =>
      have lower := place.lower
      rw [upper.addr] at gap
      refine List.pairwise_cons.mpr ⟨?_, List.pairwise_cons.mpr
        ⟨fun other late => (upper.kept other late).2, upper.spaced⟩⟩
      intro other member
      change node.finish < other.addr
      rcases List.mem_cons.mp member with rfl | late
      · rw [upper.addr]
        omega
      · have ahead := place.ahead other (upper.kept other late).1
        omega
    case filled =>
      intro other member
      rcases List.mem_cons.mp member with rfl | late
      · exact returned.filled.trans_le upper.room
      · exact (list.behind place.split (upper.kept other late).1).2
    case below =>
      intro other member
      rcases List.mem_cons.mp member with rfl | late
      · rw [upper.addr]
        exact returned.below
      · exact list.below other (list.behind place.split (upper.kept other late).1).1
    case entry => rfl
  case covered =>
    intro x
    have both := upper.covered x
    rw [place.split, covered_append, covered_append, covered_cons, covered_cons, covered_cons]
    tauto
  case room => exact ⟨grown, by simp, upper.room⟩
  case length =>
    have shorter := upper.shorter
    simp only [place.split, List.length_append, List.length_cons]
    omega
  case sizes => exact fun a _ different => upper.same a different

end
end
end Lower

theorem free_spec (list : FreeList mem nodes) (returned : Returned mem nodes block) :
    ∃ after merged, free mem (block.addr + headerSize) = some after ∧
    Inserted mem after nodes block merged := by
  obtain ⟨left, node, right, place⟩ := list.place returned
  have found := list.seek_place returned place
  obtain ⟨grown, rest, upper⟩ := joinUpper_spec list returned place
  have isNode : node ∈ nodes := by simp [place.split]
  rw [free, Nat.add_sub_cancel]
  dsimp only
  rw [found, Option.map_some, joinLower, upper.header, upper.size_eq list returned isNode]
  by_cases touch : node.addr + headerSize * node.units = block.addr
  · rw [if_pos touch]
    have reach : node.finish = grown.addr := upper.addr ▸ touch
    exact ⟨_, _, rfl, upper.absorbed list returned place reach⟩
  · rw [if_neg touch]
    have gap : node.finish ≠ grown.addr := upper.addr ▸ touch
    exact ⟨_, _, rfl, upper.linked list returned place gap⟩

end Xv6Hacks.UserHeap
