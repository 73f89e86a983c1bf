import Xv6Hacks.UserHeap

/-!
# Sequences of `malloc` and `free`

What `malloc` takes off the free list and what a whole sequence of calls keeps: the free
blocks and the blocks in use share out the memory that `sbrk` returned, and neither loop
goes around for ever.
-/

namespace Xv6Hacks.UserHeap

open CircularWalks Function GuardedRuns

variable {nunits nbytes : Nat} {sbrk : Sbrk} {state : State}

variable {mem : Mem} {nodes left right : List Span} {node block : Span}

theorem FreeList.alone (list : FreeList mem nodes) (split : nodes = left ++ node :: right) {x : Nat}
    (has : node.Has x) : ¬ Covered left x ∧ ¬ Covered right x := by
  have spaced := list.spaced
  rw [split] at spaced
  obtain ⟨-, ahead, before⟩ := List.pairwise_append.mp spaced
  constructor
  · rintro ⟨other, early, inOther⟩
    have gap := before other early node (.head _)
    have := inOther.2
    have := has.1
    omega
  · rintro ⟨other, late, inOther⟩
    have gap := (List.pairwise_cons.mp ahead).1 other late
    have := inOther.1
    have := has.2
    omega

theorem FreeList.header_outside (list : FreeList mem nodes) (split : nodes = left ++ node :: right)
    {other : Span} (member : other ∈ left ++ right) : ¬ node.Has other.addr := by
  have spaced := list.spaced
  rw [split] at spaced
  obtain ⟨-, ahead, before⟩ := List.pairwise_append.mp spaced
  intro has
  rcases List.mem_append.mp member with early | late
  · have gap := before other early node (.head _)
    have := other.addr_le_finish
    have := has.1
    omega
  · have gap := (List.pairwise_cons.mp ahead).1 other late
    have := has.2
    omega

/-- `block` is cut off the list, and its header says so. -/
structure Taken (mem after : Mem) (nodes : List Span) (block : Span) (kept : List Span) :
    Prop where
  frame : Frame mem after
  list : FreeList after kept
  header : after.size block.addr = block.units
  above : mem.base < block.addr
  covered : ∀ x, Covered nodes x ↔ Covered kept x ∨ block.Has x
  apart : ∀ x, block.Has x → ¬ Covered kept x
  sizes : ∀ a, ¬ Covered nodes a → after.size a = mem.size a

section Take
variable {second : Span} {behind : List Span}

theorem FreeList.take_whole (list : FreeList mem nodes)
    (split : nodes = left ++ node :: second :: behind) : Taken mem
      { mem with
        ptr := update mem.ptr node.addr (mem.ptr second.addr), freep := node.addr }
      nodes second (left ++ node :: behind) := by
  have isNode : node ∈ nodes := by simp [split]
  have isSecond : second ∈ nodes := by simp [split]
  have others := list.others split
  have around := list.around split
  have spaced := list.spaced
  rw [split] at spaced
  obtain ⟨ahead, rest⟩ := List.pairwise_cons.mp (List.pairwise_append.mp spaced).2.1
  have shifted : nodes = (left ++ [node]) ++ second :: behind := by simp [split]
  constructor
  case frame => exact ⟨rfl, rfl, rfl⟩
  case list =>
    apply list.replace split
    case frame => exact ⟨rfl, rfl, rfl⟩
    case base => exact list.base_units isNode
    case grown => exact le_rfl
    case walk =>
      have tail : Walk mem.ptr (second.addr :: ((behind ++ left).map Span.addr ++ [node.addr])) :=
        (List.isChain_cons_cons.mp around).2
      apply walk_redirect tail
      rw [List.dropLast_concat]
      intro member
      obtain ⟨other, inBoth, same⟩ := List.mem_map.mp member
      exact others other (.tail second inBoth) same
    case same => exact fun _ _ => rfl
    case sizes =>
      intro other member
      rcases List.mem_cons.mp member with rfl | late
      · exact list.sizes node isNode
      · exact list.sizes other (by simp [split, late])
    case spaced =>
      exact List.pairwise_cons.mpr
        ⟨fun other late => ahead other (.tail second late),
          (List.pairwise_cons.mp rest).2⟩
    case filled =>
      exact fun other late => (list.behind split (.tail second late)).2
    case below => exact fun other late => list.below other (by simp [split, late])
    case entry => rfl
  case header => exact list.sizes second isSecond
  case above =>
    have first := list.base_le (List.mem_map_of_mem isNode)
    have gap := ahead second (.head _)
    have := node.addr_le_finish
    omega
  case covered =>
    intro x
    rw [split, covered_append, covered_append, covered_cons, covered_cons, covered_cons]
    tauto
  case apart =>
    intro x has
    have alone := list.alone shifted has
    rw [covered_append, covered_cons] at alone ⊢
    tauto
  case sizes => exact fun _ _ => rfl

theorem FreeList.take_tail (list : FreeList mem nodes)
    (split : nodes = left ++ node :: second :: behind) (positive : 0 < nunits)
    (more : nunits < second.units) : Taken mem
      { mem with
        size := update
          (update mem.size second.addr (second.units - nunits))
          (second.addr + headerSize * (second.units - nunits)) nunits
        freep := node.addr }
      nodes ⟨second.addr + headerSize * (second.units - nunits), nunits⟩
      (left ++ node :: ⟨second.addr, second.units - nunits⟩ :: behind) := by
  have isNode : node ∈ nodes := by simp [split]
  have isSecond : second ∈ nodes := by simp [split]
  have around := list.around split
  have spaced := list.spaced
  rw [split] at spaced
  obtain ⟨ahead, rest⟩ := List.pairwise_cons.mp (List.pairwise_append.mp spaced).2.1
  obtain ⟨later, rest⟩ := List.pairwise_cons.mp rest
  have shifted : nodes = (left ++ [node]) ++ second :: behind := by simp [split]
  have cut : ∀ x, second.Has x ↔ Span.Has ⟨second.addr, second.units - nunits⟩ x ∨
      Span.Has ⟨second.addr + headerSize * (second.units - nunits), nunits⟩ x := by
    intro x
    simp only [Span.Has, finish_eq, headerSize]
    omega
  -- only the two headers in the block are written
  have sizes : ∀ a, ¬ second.Has a →
      update (update mem.size second.addr (second.units - nunits))
        (second.addr + headerSize * (second.units - nunits)) nunits a = mem.size a := by
    intro a outside
    simp only [Span.Has, finish_eq] at outside
    rw [update_of_ne, update_of_ne]
    · omega
    · simp only [headerSize]
      omega
  have first : update (update mem.size second.addr (second.units - nunits))
      (second.addr + headerSize * (second.units - nunits)) nunits second.addr =
        second.units - nunits := by
    rw [update_of_ne, update_self]
    simp only [headerSize]
    omega
  have outside : ∀ other ∈ left ++ [node] ++ behind, other ∈ nodes ∧ ¬ second.Has other.addr :=
    fun other member =>
      ⟨by simp only [split, List.mem_append, List.mem_cons, List.not_mem_nil] at member ⊢; tauto,
        list.header_outside shifted member⟩
  constructor
  case frame => exact ⟨rfl, rfl, rfl⟩
  case list =>
    apply list.replace split
    case frame => exact ⟨rfl, rfl, rfl⟩
    case base => exact list.base_units isNode
    case grown => exact le_rfl
    case walk => exact around
    case same => exact fun other early => sizes _ (outside other (by simp [early])).2
    case sizes =>
      intro other member
      rcases List.mem_cons.mp member with rfl | later
      · exact (sizes _ (outside node (by simp)).2).trans (list.sizes node isNode)
      · rcases List.mem_cons.mp later with rfl | late
        · exact first
        · obtain ⟨inNodes, apart⟩ := outside other (by simp [late])
          exact (sizes _ apart).trans (list.sizes other inNodes)
    case spaced =>
      refine List.pairwise_cons.mpr ⟨?_, List.pairwise_cons.mpr ⟨?_, rest⟩⟩
      · intro other member
        rcases List.mem_cons.mp member with rfl | late
        · exact ahead second (.head _)
        · exact ahead other (.tail second late)
      · intro other late
        have gap := later other late
        rw [finish_eq] at gap ⊢
        dsimp only
        omega
    case filled =>
      intro other member
      rcases List.mem_cons.mp member with rfl | late
      · exact Nat.sub_pos_of_lt more
      · exact (list.behind split (.tail second late)).2
    case below =>
      intro other member
      rcases List.mem_cons.mp member with rfl | late
      · exact list.below second isSecond
      · exact list.below other (by simp [split, late])
    case entry => rfl
  case header => exact update_self ..
  case above =>
    have lowest := list.base_le (List.mem_map_of_mem isNode)
    have gap := ahead second (.head _)
    have := node.addr_le_finish
    dsimp only
    omega
  case covered =>
    intro x
    have both := cut x
    rw [split, covered_append, covered_append, covered_cons, covered_cons, covered_cons,
      covered_cons]
    tauto
  case apart =>
    intro x has
    have alone := list.alone shifted ((cut x).mpr (.inr has))
    have lower : ¬ Span.Has ⟨second.addr, second.units - nunits⟩ x := by
      have start := has.1
      simp only [Span.Has, finish_eq, headerSize] at start ⊢
      omega
    rw [covered_append, covered_cons] at alone
    rw [covered_append, covered_cons, covered_cons]
    tauto
  case sizes =>
    intro a uncovered
    apply sizes
    intro has
    exact uncovered ⟨second, isSecond, has⟩

end Take

theorem take_spec (list : FreeList mem nodes) {prevp : Nat} (member : prevp ∈ nodes.map Span.addr)
    (positive : 0 < nunits) (fits : nunits ≤ mem.size (mem.ptr prevp)) :
    ∃ block kept, (take mem nunits prevp (mem.ptr prevp)).2 = block.addr + headerSize ∧
    block.units = nunits ∧
    Taken mem (take mem nunits prevp (mem.ptr prevp)).1 nodes block kept := by
  obtain ⟨node, isNode, rfl⟩ := List.mem_map.mp member
  obtain ⟨left, right, split⟩ := List.append_of_mem isNode
  rcases list.next split with ⟨second, behind, rfl, leads⟩ | ⟨-, leads⟩
  · have size : mem.size second.addr = second.units := list.sizes second (by simp [split])
    rw [leads] at fits ⊢
    rw [size] at fits
    simp only [take, size]
    by_cases exact : second.units = nunits
    · rw [if_pos exact]
      exact ⟨second, _, rfl, exact, list.take_whole split⟩
    · rw [if_neg exact]
      exact ⟨_, _, rfl, rfl, list.take_tail split positive (by omega)⟩
  · -- the static header is too small
    obtain ⟨rest, shape⟩ := List.head?_eq_some_iff.mp list.head
    have size : mem.size mem.base = 0 := list.sizes ⟨mem.base, 0⟩ (shape ▸ List.mem_cons_self)
    rw [leads, size] at fits
    omega

/-- The free blocks and the blocks in use share out the memory that `sbrk` returned. -/
structure Heap (mem : Mem) (live : List Block) (nodes : List Span) : Prop where
  list : FreeList mem nodes
  base : 0 < mem.base
  headers : ∀ block ∈ live, mem.size block.addr = block.units
  usable : ∀ block ∈ live, block.nbytes + headerSize ≤ headerSize * block.units
  above : ∀ block ∈ live, mem.base < block.addr
  apart : ∀ block ∈ live, ∀ x, block.toSpan.Has x → ¬ Covered nodes x
  disjoint : live.Pairwise fun one other => ∀ x, one.toSpan.Has x → ¬ other.toSpan.Has x
  tiled : ∀ x, (∃ region ∈ mem.regions, region.1 ≤ x ∧ x < region.1 + region.2) ↔
    Covered nodes x ∨ Covered (live.map Block.toSpan) x
  below : ∀ region ∈ mem.regions, region.1 + region.2 ≤ mem.top

variable {live : List Block}

section
variable (heap : Heap mem live nodes)
include heap

theorem Heap.below_top {x : Nat}
    (used : Covered nodes x ∨ Covered (live.map Block.toSpan) x) : x < mem.top := by
  obtain ⟨region, member, -, inside⟩ := (heap.tiled x).mpr used
  exact inside.trans_le (heap.below region member)

theorem Heap.filled {block : Block} (member : block ∈ live) : 0 < block.units := by
  have usable := heap.usable block member
  simp only [headerSize] at usable
  omega

theorem Heap.has_addr {block : Block} (member : block ∈ live) : block.toSpan.Has block.addr := by
  have filled := heap.filled member
  simp only [Span.Has, finish_eq]
  omega

theorem Heap.perm {other : List Block} (perm : live.Perm other) : Heap mem other nodes where
  list := heap.list
  base := heap.base
  headers block member := heap.headers block (perm.mem_iff.mpr member)
  usable block member := heap.usable block (perm.mem_iff.mpr member)
  above block member := heap.above block (perm.mem_iff.mpr member)
  apart block member := heap.apart block (perm.mem_iff.mpr member)
  disjoint := by
    refine (perm.pairwise_iff ?_).mp heap.disjoint
    intro one other apart x inOther inOne
    exact apart x inOne inOther
  tiled x := by
    rw [heap.tiled x]
    simp only [Covered, List.mem_map, perm.mem_iff]
  below := heap.below

end

theorem Heap.free {block : Block} (heap : Heap mem (block :: live) nodes) :
    ∃ after merged, free mem block.pointer = some after ∧ Heap after live merged ∧
    (∃ node ∈ merged, block.units ≤ node.units) ∧ merged.length ≤ nodes.length + 1 := by
  have here : block ∈ block :: live := List.mem_cons_self
  have inUse : ∀ other ∈ live, other ∈ block :: live := fun other member => .tail block member
  have returned : Returned mem nodes block.toSpan := by
    refine ⟨heap.headers block here, heap.filled here, heap.above block here, ?_,
      heap.apart block here⟩
    apply heap.below_top
    exact .inr ⟨block.toSpan, List.mem_map_of_mem here, heap.has_addr here⟩
  obtain ⟨after, merged, freed, inserted⟩ := free_spec heap.list returned
  refine ⟨after, merged, freed, ?_, inserted.room, inserted.length⟩
  obtain ⟨disjoint, others⟩ := List.pairwise_cons.mp heap.disjoint
  constructor
  case list => exact inserted.list
  case base =>
    rw [inserted.frame.base]
    exact heap.base
  case headers =>
    intro other member
    have has := heap.has_addr (inUse other member)
    rw [inserted.sizes other.addr ?_ ?_]
    · exact heap.headers other (inUse other member)
    · intro inList
      obtain ⟨node, isNode, same⟩ := List.mem_map.mp inList
      have above := heap.above other (inUse other member)
      have filled := heap.list.filled node isNode (by omega)
      apply heap.apart other (inUse other member) other.addr has
      refine ⟨node, isNode, ?_⟩
      simp only [Span.Has, finish_eq]
      omega
    · intro same
      apply disjoint other member other.addr ?_ has
      rw [same]
      exact heap.has_addr here
  case usable => exact fun other member => heap.usable other (inUse other member)
  case above =>
    rw [inserted.frame.base]
    exact fun other member => heap.above other (inUse other member)
  case apart =>
    intro other member x has covered
    rcases (inserted.covered x).mp covered with before | inBlock
    · exact heap.apart other (inUse other member) x has before
    · exact disjoint other member x inBlock has
  case disjoint => exact others
  case tiled =>
    intro x
    rw [inserted.frame.regions, heap.tiled x, inserted.covered x, List.map_cons, covered_cons]
    tauto
  case below =>
    rw [inserted.frame.regions, inserted.frame.top]
    exact heap.below

theorem Heap.grow (heap : Heap mem live nodes) {p nu : Nat} (fresh : mem.top ≤ p)
    (positive : 0 < nu) : Heap
      { mem with
        regions := (p, nu * headerSize) :: mem.regions
        top := p + nu * headerSize
        size := update mem.size p nu }
      (⟨⟨p, nu⟩, 0⟩ :: live) nodes := by
  have old : ∀ x, Covered nodes x ∨ Covered (live.map Block.toSpan) x → x < p :=
    fun x used => (heap.below_top used).trans_le fresh
  constructor
  case list =>
    have list := heap.list
    refine ⟨list.head, list.closed, ?_, list.spaced, list.filled, list.entry, ?_⟩
    · intro node member
      rw [← list.sizes node member]
      apply update_of_ne
      have below := list.below node member
      omega
    · intro node member
      have below := list.below node member
      dsimp only
      omega
  case base => exact heap.base
  case headers =>
    intro block member
    rcases List.mem_cons.mp member with rfl | inUse
    · exact update_self ..
    · rw [← heap.headers block inUse]
      apply update_of_ne
      have below := old block.addr
        (.inr ⟨block.toSpan, List.mem_map_of_mem inUse, heap.has_addr inUse⟩)
      omega
  case usable =>
    intro block member
    rcases List.mem_cons.mp member with rfl | inUse
    · simp only [headerSize]
      omega
    · exact heap.usable block inUse
  case above =>
    intro block member
    rcases List.mem_cons.mp member with rfl | inUse
    · obtain ⟨rest, shape⟩ := List.head?_eq_some_iff.mp heap.list.head
      have below := heap.list.below ⟨mem.base, 0⟩ (shape ▸ List.mem_cons_self)
      exact below.trans_le fresh
    · exact heap.above block inUse
  case apart =>
    intro block member x has covered
    rcases List.mem_cons.mp member with rfl | inUse
    · exact absurd has.1 (old x (.inl covered)).not_ge
    · exact heap.apart block inUse x has covered
  case disjoint =>
    refine List.pairwise_cons.mpr ⟨?_, heap.disjoint⟩
    intro block inUse x inRegion has
    have below := old x (.inr ⟨block.toSpan, List.mem_map_of_mem inUse, has⟩)
    exact absurd inRegion.1 below.not_ge
  case tiled =>
    intro x
    have before := heap.tiled x
    rw [List.map_cons, covered_cons]
    simp only [List.exists_mem_cons_iff, Span.Has, finish_eq, headerSize]
    rw [before, Nat.mul_comm nu 8]
    tauto
  case below =>
    intro region member
    rcases List.mem_cons.mp member with rfl | earlier
    · exact le_rfl
    · have below := heap.below region earlier
      dsimp only
      omega

theorem Heap.taken (heap : Heap mem live nodes) {after : Mem} {block : Span} {kept : List Span}
    (taken : Taken mem after nodes block kept)
    (enough : nbytes + headerSize ≤ headerSize * block.units) :
    Heap after (⟨block, nbytes⟩ :: live) kept := by
  have outside : ∀ x, Covered kept x → Covered nodes x :=
    fun x covered => (taken.covered x).mpr (.inl covered)
  constructor
  case list => exact taken.list
  case base =>
    rw [taken.frame.base]
    exact heap.base
  case headers =>
    intro other member
    rcases List.mem_cons.mp member with rfl | inUse
    · exact taken.header
    · rw [taken.sizes other.addr (heap.apart other inUse _ (heap.has_addr inUse))]
      exact heap.headers other inUse
  case usable =>
    intro other member
    rcases List.mem_cons.mp member with rfl | inUse
    · exact enough
    · exact heap.usable other inUse
  case above =>
    intro other member
    rw [taken.frame.base]
    rcases List.mem_cons.mp member with rfl | inUse
    · exact taken.above
    · exact heap.above other inUse
  case apart =>
    intro other member x has covered
    rcases List.mem_cons.mp member with rfl | inUse
    · exact taken.apart x has covered
    · exact heap.apart other inUse x has (outside x covered)
  case disjoint =>
    refine List.pairwise_cons.mpr ⟨?_, heap.disjoint⟩
    intro other inUse x inBlock has
    exact heap.apart other inUse x has ((taken.covered x).mpr (.inr inBlock))
  case tiled =>
    intro x
    rw [taken.frame.regions, heap.tiled x, taken.covered x, List.map_cons, covered_cons]
    tauto
  case below =>
    rw [taken.frame.regions, taken.frame.top]
    exact heap.below

theorem morecore_spec (heap : Heap mem live nodes) (fresh : sbrk.Fresh)
    (small : nunits * headerSize < 2 ^ 31) : morecore sbrk mem nunits = some (mem, 0) ∨
    ∃ after merged, morecore sbrk mem nunits = some (after, after.freep) ∧
    Heap after live merged ∧ (∃ node ∈ merged, nunits ≤ node.units) ∧
    merged.length ≤ nodes.length + 1 := by
  simp only [headerSize] at small
  generalize chosen : (if nunits < 4096 then 4096 else nunits) = nu
  have bounds : nunits ≤ nu ∧ 0 < nu ∧ nu * headerSize < 2 ^ 31 := by
    simp only [headerSize]
    split at chosen <;> omega
  have whole : nu * headerSize % 2 ^ 32 = nu * headerSize := by
    apply Nat.mod_eq_of_lt
    omega
  rw [morecore]
  dsimp only
  rw [chosen, whole]
  cases answer : sbrk mem.top (nu * headerSize) with
  | none => exact .inl rfl
  | some p =>
    right
    have positive : 0 < nu * headerSize := Nat.mul_pos bounds.2.1 (by decide)
    have above := fresh _ _ _ positive bounds.2.2 answer
    obtain ⟨after, merged, freed, grown, ⟨node, member, room⟩, length⟩ :=
      (heap.grow above bounds.2.1).free
    have freed : UserHeap.free _ (p + headerSize) = some after := freed
    dsimp only
    rw [freed]
    exact ⟨after, merged, rfl, grown, ⟨node, member, bounds.1.trans room⟩, length⟩

theorem search_round {prevp : Nat} {rest : List Nat}
    (walk : Walk mem.ptr (prevp :: (rest ++ [mem.freep]))) (fresh : mem.freep ∉ rest) {fuel : Nat}
    (enough : rest.length < fuel) : (∃ node ∈ prevp :: rest, nunits ≤ mem.size (mem.ptr node) ∧
      search sbrk nunits fuel mem prevp (mem.ptr prevp) =
        some (take mem nunits node (mem.ptr node))) ∨
    ((∀ a ∈ rest ++ [mem.freep], mem.size a < nunits) ∧
      ∃ remaining, fuel = remaining + rest.length + 1 ∧
        search sbrk nunits fuel mem prevp (mem.ptr prevp) =
          (morecore sbrk mem nunits).bind fun grown => if grown.2 = 0 then some (grown.1, 0)
            else search sbrk nunits remaining grown.1 grown.2 (grown.1.ptr grown.2)) := by
  induction rest generalizing prevp fuel with
  | nil =>
    obtain ⟨less, rfl⟩ : ∃ less, fuel = less + 1 := ⟨fuel - 1, by omega⟩
    have leads : mem.ptr prevp = mem.freep := (List.isChain_cons_cons.mp walk).1
    rw [search]
    by_cases fits : nunits ≤ mem.size (mem.ptr prevp)
    · rw [if_pos fits]
      exact .inl ⟨prevp, .head _, fits, rfl⟩
    · rw [if_neg fits, if_pos leads]
      refine .inr ⟨?_, less, rfl, rfl⟩
      intro a member
      rw [List.mem_singleton.mp member, ← leads]
      omega
  | cons second rest ih =>
    obtain ⟨less, rfl⟩ : ∃ less, fuel = less + 1 := ⟨fuel - 1, by omega⟩
    obtain ⟨leads, tail⟩ := List.isChain_cons_cons.mp walk
    rw [search]
    by_cases fits : nunits ≤ mem.size (mem.ptr prevp)
    · rw [if_pos fits]
      exact .inl ⟨prevp, .head _, fits, rfl⟩
    · have inside : mem.ptr prevp ≠ mem.freep := by
        rw [leads]
        intro same
        exact fresh (same ▸ List.mem_cons_self)
      rw [if_neg fits, if_neg inside, leads]
      rw [leads] at fits
      rw [List.length_cons] at enough
      have later : mem.freep ∉ rest := fun member => fresh (.tail second member)
      rcases ih tail later (Nat.lt_of_succ_lt_succ enough) with
        ⟨node, member, found⟩ | ⟨tooSmall, remaining, shape, grows⟩
      · exact .inl ⟨node, .tail prevp member, found⟩
      · refine .inr ⟨?_, remaining, by rw [shape, List.length_cons]; omega, grows⟩
        intro a member
        rcases List.mem_cons.mp member with rfl | inRest
        · omega
        · exact tooSmall a inRest

theorem FreeList.search_from_freep (list : FreeList mem nodes) (sbrk : Sbrk) (nunits : Nat)
    {fuel : Nat} (enough : nodes.length ≤ fuel) :
    (∃ node ∈ nodes.map Span.addr, nunits ≤ mem.size (mem.ptr node) ∧
      search sbrk nunits fuel mem mem.freep (mem.ptr mem.freep) =
        some (take mem nunits node (mem.ptr node))) ∨ ((∀ node ∈ nodes, node.units < nunits) ∧
      ∃ remaining, fuel = remaining + nodes.length ∧
        search sbrk nunits fuel mem mem.freep (mem.ptr mem.freep) =
          (morecore sbrk mem nunits).bind fun grown => if grown.2 = 0 then some (grown.1, 0)
            else search sbrk nunits remaining grown.1 grown.2 (grown.1.ptr grown.2)) := by
  obtain ⟨entry, isEntry, here⟩ := List.mem_map.mp list.entry
  obtain ⟨left, right, split⟩ := List.append_of_mem isEntry
  have around := list.around split
  have fresh : entry.addr ∉ (right ++ left).map Span.addr := by
    intro member
    obtain ⟨other, inBoth, same⟩ := List.mem_map.mp member
    exact list.others split other inBoth same
  have same : ∀ a, a ∈ nodes.map Span.addr ↔ a = entry.addr ∨
      a ∈ (right ++ left).map Span.addr := by
    intro a
    rw [split, List.map_append, List.map_cons, List.map_append, List.mem_append, List.mem_cons,
      List.mem_append]
    tauto
  have length : nodes.length = ((right ++ left).map Span.addr).length + 1 := by
    rw [split]
    simp only [List.length_append, List.length_cons, List.length_map]
    omega
  rw [here] at around fresh
  rcases search_round around fresh (show _ < fuel by omega) with
    ⟨node, member, found⟩ | ⟨tooSmall, remaining, shape, grows⟩
  · left
    refine ⟨node, (same node).mpr ?_, found⟩
    rw [here]
    exact List.mem_cons.mp member
  · refine .inr ⟨?_, remaining, by omega, grows⟩
    intro node member
    rw [← list.sizes node member]
    apply tooSmall
    rw [List.mem_append, List.mem_singleton, ← here]
    exact ((same node.addr).mp (List.mem_map_of_mem member)).symm

/-- What `malloc` returned: nothing, or a block for `nbytes` bytes. -/
def Served (live : List Block) (nbytes : Nat) (after : Mem) (p : Nat) : Prop :=
  (p = 0 ∧ ∃ nodes, Heap after live nodes) ∨
    ∃ block nodes, p = block.addr + headerSize ∧ after.size block.addr = block.units ∧
      Heap after (⟨block, nbytes⟩ :: live) nodes

theorem Heap.take (heap : Heap mem live nodes) {prevp : Nat} (member : prevp ∈ nodes.map Span.addr)
    (fits : nunits ≤ mem.size (mem.ptr prevp))
    (enough : nbytes + headerSize ≤ headerSize * nunits) :
    Served live nbytes (take mem nunits prevp (mem.ptr prevp)).1
    (take mem nunits prevp (mem.ptr prevp)).2 := by
  have positive : 0 < nunits := by
    simp only [headerSize] at enough
    omega
  obtain ⟨block, kept, address, units, taken⟩ := take_spec heap.list member positive fits
  refine .inr ⟨block, kept, address, taken.header, heap.taken taken ?_⟩
  rw [units]
  exact enough

/-- The loop ends in its second round at the latest. -/
theorem Heap.search (heap : Heap mem live nodes) (fresh : sbrk.Fresh)
    (small : nunits * headerSize < 2 ^ 31) (enough : nbytes + headerSize ≤ headerSize * nunits) :
    ∃ after p, search sbrk nunits (rounds mem) mem mem.freep (mem.ptr mem.freep) =
    some (after, p) ∧ Served live nbytes after p := by
  have length := heap.list.length_le
  rcases heap.list.search_from_freep sbrk nunits
    (show nodes.length ≤ rounds mem by rw [rounds]; omega) with
    ⟨node, member, fits, found⟩ | ⟨-, remaining, shape, grows⟩
  · exact ⟨_, _, found, heap.take member fits enough⟩
  · rcases morecore_spec heap fresh small with failed | ⟨after, merged, grown, now, room, longer⟩
    · rw [failed] at grows
      exact ⟨mem, 0, grows, .inl ⟨rfl, nodes, heap⟩⟩
    · rw [grown, Option.bind_some] at grows
      have first := now.list.base_le now.list.entry
      have base := now.base
      rw [if_neg (by omega)] at grows
      rw [rounds] at shape
      rcases now.list.search_from_freep sbrk nunits
        (show merged.length ≤ remaining by omega) with
        ⟨node, member, fits, found⟩ | ⟨tooSmall, -⟩
      · exact ⟨_, _, grows.trans found, now.take member fits enough⟩
      · obtain ⟨node, member, large⟩ := room
        exact absurd large (tooSmall node member).not_ge

theorem unitsFor_bounds (small : nbytes < 2 ^ 31 - 4096 * headerSize) :
    unitsFor nbytes * headerSize < 2 ^ 31 ∧ nbytes + headerSize ≤ headerSize * unitsFor nbytes := by
  simp only [unitsFor, headerSize] at small ⊢
  omega

/-- Before the first request nothing is in use; afterwards the heap is in order. -/
def Invariant (state : State) : Prop :=
  Start state ∨ ∃ nodes, Heap state.mem state.live nodes

theorem Start.initialise (start : Start state) :
    Heap (initialise state.mem) state.live [⟨state.mem.base, 0⟩] := by
  have nothing : ∀ x, ¬ Covered [⟨state.mem.base, 0⟩] x := by
    rintro x ⟨span, member, has⟩
    rw [List.mem_singleton.mp member] at has
    simp only [Span.Has, finish_eq] at has
    omega
  rw [start.live]
  constructor
  case list =>
    constructor
    case head => rfl
    case closed => exact List.isChain_pair.mpr (update_self ..)
    case sizes =>
      intro node member
      rw [List.mem_singleton.mp member]
      exact update_self ..
    case spaced => exact List.pairwise_singleton ..
    case filled =>
      intro node member different
      rw [List.mem_singleton.mp member] at different
      exact absurd rfl different
    case entry => exact .head _
    case below =>
      intro node member
      have below := start.below
      rw [List.mem_singleton.mp member]
      simp only [headerSize, UserHeap.initialise] at below ⊢
      omega
  case base => exact start.base
  case headers => exact fun _ member => absurd member List.not_mem_nil
  case usable => exact fun _ member => absurd member List.not_mem_nil
  case above => exact fun _ member => absurd member List.not_mem_nil
  case apart => exact fun _ member => absurd member List.not_mem_nil
  case disjoint => exact List.Pairwise.nil
  case tiled =>
    intro x
    have regions : (UserHeap.initialise state.mem).regions = [] := start.regions
    rw [regions]
    constructor
    · rintro ⟨region, member, -⟩
      exact absurd member List.not_mem_nil
    · rintro (covered | ⟨span, member, -⟩)
      · exact absurd covered (nothing x)
      · exact absurd member List.not_mem_nil
  case below =>
    have regions : (UserHeap.initialise state.mem).regions = [] := start.regions
    rw [regions]
    exact fun _ member => absurd member List.not_mem_nil

theorem Invariant.malloc (holds : Invariant state) (fresh : sbrk.Fresh)
    (small : nbytes < 2 ^ 31 - 4096 * headerSize) :
    ∃ after p, malloc sbrk state.mem nbytes = some (after, p) ∧
    Served state.live nbytes after p := by
  obtain ⟨units, enough⟩ := unitsFor_bounds small
  rcases holds with start | ⟨nodes, heap⟩
  · rw [UserHeap.malloc, if_pos start.unset]
    exact start.initialise.search fresh units enough
  · have first := heap.list.base_le heap.list.entry
    have base := heap.base
    rw [UserHeap.malloc, if_neg (by omega)]
    exact heap.search fresh units enough

theorem Invariant.free (holds : Invariant state) {block : Block} (member : block ∈ state.live) :
    ∃ after merged, free state.mem block.pointer = some after ∧
    Heap after (state.live.erase block) merged := by
  rcases holds with start | ⟨nodes, heap⟩
  · rw [start.live] at member
    exact absurd member List.not_mem_nil
  · have split := heap.perm (List.perm_cons_erase member)
    obtain ⟨after, merged, freed, rest, -⟩ := split.free
    exact ⟨after, merged, freed, rest⟩

theorem invariant_step (before : State) (action : Action) (after : State) (holds : Invariant before)
    (permitted : Permitted before action)
    (taken : step before action = some after) : Invariant after := by
  cases action with
  | malloc nbytes sbrk =>
    obtain ⟨mem, p, returned, served⟩ := holds.malloc permitted.2 permitted.1
    rw [step, returned, Option.map_some, Option.some.injEq] at taken
    rcases served with ⟨rfl, nodes, heap⟩ | ⟨block, nodes, rfl, header, heap⟩
    · dsimp only at taken
      rw [if_pos rfl] at taken
      rw [← taken]
      exact .inr ⟨nodes, heap⟩
    · have pointer : block.addr + headerSize ≠ 0 := Nat.succ_ne_zero _
      dsimp only at taken
      rw [if_neg pointer, Nat.add_sub_cancel, header] at taken
      rw [← taken]
      exact .inr ⟨nodes, heap⟩
  | free ap =>
    rw [step] at taken
    cases found : before.live.find? fun block => block.pointer = ap with
    | none =>
      rw [found] at taken
      exact absurd taken (by simp)
    | some block =>
      have pointer : block.pointer = ap := by simpa using List.find?_some found
      obtain ⟨mem, merged, freed, heap⟩ := holds.free (List.mem_of_find?_eq_some found)
      rw [found] at taken
      dsimp only at taken
      rw [← pointer, freed, Option.map_some, Option.some.injEq] at taken
      rw [← taken]
      exact .inr ⟨merged, heap⟩

/-- `nodes` are the free blocks in the order of their addresses, the static header first.
The links lead from each to the next and from the last to the first. -/
structure Sound (state : State) (nodes : List Span) : Prop where
  circular : Closed state.mem.ptr (nodes.map Span.addr)
  entered : state.mem.freep ∈ nodes.map Span.addr
  ordered : (nodes.map Span.addr).Pairwise (· < ·)
  sizes : ∀ node ∈ nodes, state.mem.size node.addr = node.units
  headers : ∀ block ∈ state.live, state.mem.size block.addr = block.units
  disjoint : (nodes ++ state.live.map Block.toSpan).Pairwise fun one other =>
    ∀ x, one.Has x → ¬ other.Has x
  tiled : ∀ x, (∃ region ∈ state.mem.regions, region.1 ≤ x ∧ x < region.1 + region.2) ↔
    Covered (nodes ++ state.live.map Block.toSpan) x
  merged : nodes.Pairwise fun lower upper => lower.finish ≠ upper.addr
  usable : ∀ block ∈ state.live, block.pointer + block.nbytes ≤ block.finish

theorem Heap.sound (heap : Heap state.mem state.live nodes) : Sound state nodes where
  circular := heap.list.closed
  entered := heap.list.entry
  ordered := heap.list.sorted
  sizes := heap.list.sizes
  headers := heap.headers
  disjoint := by
    refine List.pairwise_append.mpr ⟨?_, ?_, ?_⟩
    · apply heap.list.spaced.imp
      intro lower upper gap x inLower inUpper
      have := inLower.2
      have := inUpper.1
      omega
    · rw [List.pairwise_map]
      exact heap.disjoint
    · intro node isNode span isSpan x inNode inSpan
      obtain ⟨block, inUse, rfl⟩ := List.mem_map.mp isSpan
      exact heap.apart block inUse x inSpan ⟨node, isNode, inNode⟩
  tiled x := by
    rw [covered_append]
    exact heap.tiled x
  merged := heap.list.spaced.imp fun gap => gap.ne
  usable block inUse := by
    have usable := heap.usable block inUse
    rw [Block.pointer, finish_eq]
    simp only [headerSize] at usable ⊢
    omega

/-- After every sequence of `malloc` and `free` calls the heap is sound, and the next
call returns. -/
theorem user_heap_sound {start state : State} (initial : Start start)
    (reached : Reaches step Permitted start state) : (Start state ∨ ∃ nodes, Sound state nodes) ∧
      (∀ nbytes sbrk, Permitted state (.malloc nbytes sbrk) →
        (malloc sbrk state.mem nbytes).isSome) ∧
      ∀ block ∈ state.live, (free state.mem block.pointer).isSome := by
  have holds : Invariant state := reaches_invariant Invariant (.inl initial) invariant_step reached
  refine ⟨?_, ?_, ?_⟩
  · rcases holds with untouched | ⟨nodes, heap⟩
    · exact .inl untouched
    · exact .inr ⟨nodes, heap.sound⟩
  · intro nbytes sbrk permitted
    obtain ⟨after, p, returned, -⟩ := holds.malloc permitted.2 permitted.1
    rw [returned]
    rfl
  · intro block member
    obtain ⟨after, merged, freed, -⟩ := holds.free member
    rw [freed]
    rfl

def untouched : State where
  mem := { ptr := fun _ => 0, size := fun _ => 0, base := 16, freep := 0, regions := [],
           top := 4096 }
  live := []

def moreMemory : Sbrk := fun top _ => some top

theorem more_memory_fresh : moreMemory.Fresh := by
  intro top bytes p _ _ answer
  cases answer
  exact le_rfl

/-- Three blocks are cut off the end of a region of 4096 units at address 4096. Of the two
that are freed the third one touches what is left of the region. -/
def threeRequests : List Action :=
  [.malloc 100 moreMemory, .malloc 20 moreMemory, .malloc 8 moreMemory, .free 36712, .free 36760]

theorem three_requests_sound :
    ∃ state, Reaches step Permitted untouched state ∧ state.live = [⟨⟨36720, 4⟩, 20⟩] ∧
      state.mem.ptr 4096 = 36752 ∧ ∃ nodes, Sound state nodes := by
  obtain ⟨state, ran, shape⟩ := exists_of_run step untouched threeRequests
    (fun state => state.live = [⟨⟨36720, 4⟩, 20⟩] ∧ state.mem.ptr 4096 = 36752)
    (by decide +kernel)
  have request : ∀ before nbytes, nbytes < 2 ^ 31 - 4096 * headerSize →
      Permitted before (.malloc nbytes moreMemory) :=
    fun _ _ small => ⟨small, more_memory_fresh⟩
  have guarded : AllGuarded step Permitted untouched threeRequests :=
    ⟨request _ _ (by decide), fun _ _ => ⟨request _ _ (by decide), fun _ _ =>
      ⟨request _ _ (by decide), fun _ _ => ⟨trivial, fun _ _ => ⟨trivial, fun _ _ => trivial⟩⟩⟩⟩⟩
  have reached := reaches_of_run guarded ran
  obtain ⟨live, links⟩ := of_decide_eq_true shape
  refine ⟨state, reached, live, links, ?_⟩
  have initial : Start untouched := ⟨rfl, by decide, by decide, rfl, rfl⟩
  rcases (user_heap_sound initial reached).1 with unused | sound
  · rw [unused.live] at live
    exact absurd live (by simp)
  · exact sound

end Xv6Hacks.UserHeap
