import Xv6Hacks.BootMemory
import Xv6Hacks.Exec
import Xv6Hacks.GuardedRuns
import Xv6Hacks.PageFault
import Xv6Hacks.SpaceChanges

/-!
# Where an executable can write

`exec` takes addresses and sizes from the file, adds them modulo 2^32 and lets `loaduvm`
follow whatever page table entry it finds. The new directory also maps the kernel, so a
segment whose end wraps around is loaded over pages of the kernel or of other processes,
and `loaduvm` panics for addresses that are not page-aligned or have no page table. The
theorem says exactly which program headers are harmless.
-/

namespace Xv6Hacks.ExecConfinement

open AddressSpace ByteBuffers Exec Kalloc Outcomes PageOwnership PageTables
open SpaceGrowth UserSpaces
open GuardedRuns (bind_ok)

variable {frame : Nat} {after : Image} {loaded : Bool}

/-- The invariant of `exec` until it commits. `κ₀` and `m₀` are the roles and the memory
at the call; every page of the new space was free then. -/
structure Loading (b : Build) (κ₀ : Nat → Kind) (m₀ : Mem) (pgdir : Nat) (κ : Nat → Kind)
    (image : Image) : Prop where
  owned : Owned b κ none image.m
  dir : κ pgdir = .pgdir
  fresh : κ₀ pgdir = .free
  grows : Grows pgdir κ₀ m₀ κ image.m
  sized : Sized image.m pgdir image.sz
  pages : ∀ n, n < pagesUp image.sz → ∃ frame, κ₀ frame = .free ∧ κ frame = .user ∧
    entry image.m pgdir n = makePte frame (pteW ||| pteU)
  allocated : ∀ frame, frame ∈ image.allocated ↔
    ∃ n, n < pagesUp image.sz ∧ pteFrame (entry image.m pgdir n) = frame
  guarded : KernelOnly image.m pgdir
  confined : image.escapes = []

section Pages
variable {b : Build} {κ₀ κ : Nat → Kind} {m₀ : Mem} {pgdir : Nat} {image : Image}

theorem user_pte_frame (inside : frame < maxpages) :
    pteFrame (makePte frame (pteW ||| pteU)) = frame :=
  make_pte_frame (frame_in_space inside) (by decide)

theorem Loading.allocated_user (loading : Loading b κ₀ m₀ pgdir κ image)
    (member : frame ∈ image.allocated) : κ₀ frame = .free ∧ κ frame = .user := by
  obtain ⟨n, inside, rfl⟩ := (loading.allocated frame).mp member
  obtain ⟨frame, wasFree, user, mapped⟩ := loading.pages n inside
  have bound := loading.owned.bound (by rw [user]; simp : κ frame ≠ .outside)
  rw [mapped, user_pte_frame bound]
  exact ⟨wasFree, user⟩

theorem Loading.set_page (loading : Loading b κ₀ m₀ pgdir κ image)
    (member : frame ∈ image.allocated) (content : Buffer) :
    Loading b κ₀ m₀ pgdir κ { image with m := setPage image.m frame content } := by
  obtain ⟨wasFree, user⟩ := loading.allocated_user member
  have plain : (κ frame).structural = false := by
    rw [user]
    rfl
  have same (n : Nat) : entry (setPage image.m frame content) pgdir n = entry image.m pgdir n :=
    loading.owned.entry_set_page plain content loading.dir n
  have directory : (setPage image.m frame content).page pgdir = image.m.page pgdir := by
    apply set_page_other
    rintro rfl
    rw [loading.dir] at user
    contradiction
  constructor
  case owned => exact loading.owned.set_page plain content
  case dir => exact loading.dir
  case fresh => exact loading.fresh
  case grows =>
    exact loading.grows.set_page loading.owned (by simp [wasFree]) plain content
  case sized =>
    refine ⟨loading.sized.below, ?_, ?_⟩
    · intro n above user
      rw [same n]
      exact loading.sized.absent n above user
    · intro n inside
      rw [read_entry_congr pgdir (pdx n) directory]
      exact loading.sized.tables n inside
  case pages =>
    intro n inside
    rw [same n]
    exact loading.pages n inside
  case allocated =>
    intro other
    simp only [same]
    exact loading.allocated other
  case guarded =>
    intro n kernel inside
    rw [same n]
    exact loading.guarded n kernel inside
  case confined => exact loading.confined

end Pages

section Growing
variable {b : Build} {κ₀ κ : Nat → Kind} {m₀ : Mem} {pgdir : Nat} {image : Image}
variable (counting : b.original = false) (strict : b.kallocNull = false)

theorem mem_frames_at (m : Mem) (pgdir first last frame : Nat) :
    frame ∈ framesAt m pgdir first last ↔
    ∃ n, first ≤ n ∧ n < last ∧ pteFrame (entry m pgdir n) = frame := by
  simp only [framesAt, List.mem_map, List.mem_range'_1]
  constructor
  · rintro ⟨n, ⟨lower, upper⟩, same⟩
    exact ⟨n, lower, by omega, same⟩
  · rintro ⟨n, lower, upper, same⟩
    exact ⟨n, ⟨lower, by omega⟩, same⟩

theorem frames_at_self (m : Mem) (pgdir n : Nat) : framesAt m pgdir n n = [] := by
  rw [framesAt, Nat.sub_self]
  rfl

theorem Loading.extend (loading : Loading b κ₀ m₀ pgdir κ image) {newsz : Nat} {after : Mem}
    (more : image.sz ≤ newsz) (below : newsz < kernbase)
    (allocated : Allocated b κ image.m pgdir image.sz newsz after) :
    ∃ κ', Loading b κ₀ m₀ pgdir κ' { image with
      m := after
      sz := newsz
      allocated := image.allocated ++ framesAt after pgdir (pagesUp image.sz) (pagesUp newsz) } := by
  obtain ⟨κ', owned, grows, pages, -⟩ := allocated
  have order := pages_up_mono more
  have top := pages_up_user below
  have old {n : Nat} (inside : n < pagesUp image.sz) :
      entry after pgdir n = entry image.m pgdir n := by
    apply pages.outside n _ (.inl inside)
    exact user_page_inside (by omega)
  refine ⟨κ', ?_⟩
  constructor
  case owned => exact owned
  case dir =>
    rw [grows.kinds pgdir (by rw [loading.dir]; simp)]
    exact loading.dir
  case fresh => exact loading.fresh
  case grows => exact loading.grows.trans grows
  case sized => exact loading.sized.grow loading.dir more below grows pages
  case pages =>
    intro n inside
    by_cases early : n < pagesUp image.sz
    · obtain ⟨frame, wasFree, user, mapped⟩ := loading.pages n early
      refine ⟨frame, wasFree, ?_, ?_⟩
      · exact grows.label user nofun
      · exact (old early).trans mapped
    · obtain ⟨frame, wasFree, user, mapped, -⟩ :=
        pages.new n (by omega) (by simp only at inside; omega)
      exact ⟨frame, loading.grows.was_free wasFree, user, mapped⟩
  case allocated =>
    intro frame
    rw [List.mem_append, mem_frames_at, loading.allocated]
    constructor
    · rintro (⟨n, early, same⟩ | ⟨n, -, inside, same⟩)
      · exact ⟨n, by simp only; omega, (congrArg pteFrame (old early)).trans same⟩
      · exact ⟨n, inside, same⟩
    · rintro ⟨n, inside, same⟩
      by_cases early : n < pagesUp image.sz
      · exact .inl ⟨n, early, (congrArg pteFrame (old early)).symm.trans same⟩
      · exact .inr ⟨n, by omega, inside, same⟩
  case guarded =>
    intro n kernel inside
    rw [pages.outside n inside (.inr (by omega))]
    exact loading.guarded n kernel inside
  case confined => exact loading.confined

include counting strict

theorem grow_spec (loading : Loading b κ₀ m₀ pgdir κ image) (newsz : Nat) :
    Yields (grow b pgdir image newsz) (fun result => (∃ κ', Loading b κ₀ m₀ pgdir κ' result.2) ∧
    (result.1 = true → newsz < kernbase ∧ result.2.sz = max image.sz newsz))
    (fun stop => stop = .nullRun ∧
    image.m.freelist.length < 2 * (pagesUp newsz - pagesUp image.sz)) := by
  rw [grow]
  apply (allocuvm_spec counting strict loading.owned loading.dir newsz loading.sized).seq
  · exact fun _ stopped => stopped
  rintro ⟨sz, after⟩ (⟨-, same⟩ | ⟨less, same⟩ | ⟨more, below, rfl, allocated⟩)
  · cases same
    exact ⟨⟨κ, loading⟩, fun grown => absurd grown (by simp)⟩
  · cases same
    have positive : image.sz ≠ 0 := by omega
    have kept : Loading b κ₀ m₀ pgdir κ { image with
        allocated := image.allocated ++
          framesAt image.m pgdir (pagesUp image.sz) (pagesUp image.sz) } := by
      rw [frames_at_self, List.append_nil]
      exact loading
    have below := loading.sized.below
    simp only [if_neg positive]
    refine ⟨⟨κ, kept⟩, fun _ => ⟨by omega, ?_⟩⟩
    simp only
    omega
  · obtain ⟨κ', kept⟩ := loading.extend more below allocated
    simp only
    split
    · rename_i zero
      simp only at zero more allocated
      have empty : image.sz = 0 := by omega
      refine ⟨⟨κ', ?_⟩, fun grown => absurd grown (by simp)⟩
      simp only [zero, empty, frames_at_self, List.append_nil] at kept
      have same : ({ image with m := after } : Image) =
          { m := after, sz := 0, allocated := image.allocated, escapes := image.escapes } := by
        rw [← empty]
      rw [same]
      exact kept
    · refine ⟨⟨κ', kept⟩, fun _ => ⟨below, ?_⟩⟩
      simp only at more ⊢
      omega

theorem new_space_loading {κ : Nat → Kind} {m : Mem} (owned : Owned b κ none m) :
    Yields (setupkvm b m) (fun result => ∃ pgdir κ', result.1 = some pgdir ∧
    Loading b κ m pgdir κ' (emptyImage result.2) ∧ KernelMapped b result.2 pgdir ∧
    m.freelist.length ≤ result.2.freelist.length + 65)
    (fun stop => stop = .nullRun ∧ m.freelist.length < 65) := by
  refine (setupkvm_spec counting strict owned).mono ?_ ?_
  · rintro ⟨made, after⟩ ⟨pgdir, κ', made', fresh, dir, owned', grows, mapped, closed, cost⟩
    refine ⟨pgdir, κ', made', ?_, mapped, cost⟩
    have none : pagesUp 0 = 0 := by decide
    constructor
    case owned => exact owned'
    case dir => exact dir
    case fresh => exact fresh
    case grows => exact grows
    case sized =>
      refine ⟨(by decide : 0 < kernbase), fun n _ user => mapped.1 n user, ?_⟩
      intro n inside
      simp only [emptyImage, none] at inside
      omega
    case pages =>
      intro n inside
      simp only [emptyImage, none] at inside
      omega
    case allocated =>
      intro frame
      simp [emptyImage, none]
    case guarded => exact closed
    case confined => rfl
  · exact fun _ stopped => stopped

end Growing

/-- A page that `loaduvm` may write to: one below the size, or the kernel's address of a
page that this call has allocated. -/
def PageOk (pgdir : Nat) (image : Image) (n : Nat) : Prop :=
  n < pagesUp image.sz ∨ (userPages ≤ n ∧ pteFrame (entry image.m pgdir n) ∈ image.allocated)

/-- The pages that the loop of `loaduvm` gets to have a page table, and those that
receive a byte may be written to. How far the loop gets depends on the file only. -/
def LoadOk (file : List Byte) (pgdir first offset sz : Nat) (image : Image) : Nat → Nat → Prop
  | 0, _ => True
  | count + 1, k =>
    findPte image.m pgdir ((first + k) % vpages) ≠ none ∧
      match readi file ((offset + k * pgsize) % 2 ^ 32) (min (sz - k * pgsize) pgsize) with
      | none => True
      | some bytes =>
        (bytes ≠ [] → PageOk pgdir image ((first + k) % vpages)) ∧
          (bytes.length = min (sz - k * pgsize) pgsize →
            LoadOk file pgdir first offset sz image count (k + 1))

section Loads
variable {b : Build} {κ₀ κ : Nat → Kind} {m₀ : Mem} {pgdir : Nat} {image : Image} {file : List Byte}
  {first offset sz : Nat}

section
variable (loading : Loading b κ₀ m₀ pgdir κ image)
include loading

theorem load_ok_set_page (member : frame ∈ image.allocated) (content : Buffer) (count k : Nat) :
    LoadOk file pgdir first offset sz { image with m := setPage image.m frame content } count k ↔
      LoadOk file pgdir first offset sz image count k := by
  have user := (loading.allocated_user member).2
  have plain : (κ frame).structural = false := by
    rw [user]
    rfl
  have same (n : Nat) : entry (setPage image.m frame content) pgdir n = entry image.m pgdir n :=
    loading.owned.entry_set_page plain content loading.dir n
  have find (n : Nat) : findPte (setPage image.m frame content) pgdir n =
      findPte image.m pgdir n := by
    apply find_pte_congr
    apply set_page_other
    rintro rfl
    rw [loading.dir] at user
    contradiction
  induction count generalizing k with
  | zero => exact .rfl
  | succ count ih =>
    simp only [LoadOk, PageOk, find, same, ih]

theorem PageOk.allocated {n : Nat}
    (ok : PageOk pgdir image n) : pteFrame (entry image.m pgdir n) ∈ image.allocated := by
  rcases ok with inside | ⟨-, member⟩
  · exact (loading.allocated _).mpr ⟨n, inside, rfl⟩
  · exact member

theorem store_bytes_allocated (member : frame ∈ image.allocated) (bytes : List Byte) :
    ∃ content, storeBytes b image frame bytes =
      .ok { image with m := setPage image.m frame content } := by
  have role := (loading.allocated_user member).2
  have bounds := loading.owned.inside frame (by simp [role])
  rw [storeBytes]
  split
  · refine ⟨image.m.page frame, ?_⟩
    rw [setPage, Function.update_eq_self]
  · refine ⟨copyInto (image.m.page frame) 0 bytes, ?_⟩
    simp only [if_neg (by omega : ¬ (frame < b.endFrame ∨ maxpages ≤ frame))]

end

theorem load_loop_found {count k : Nat} {slot : Nat × Nat}
    (found : findPte image.m pgdir ((first + k) % vpages) = some slot) :
    loadLoop b file pgdir first offset sz (count + 1) k image =
      match readi file ((offset + k * pgsize) % 2 ^ 32) (min (sz - k * pgsize) pgsize) with
      | none => .ok (false, image)
      | some bytes => (do
        let middle ← storeBytes b image (pteFrame (entry image.m pgdir ((first + k) % vpages))) bytes
        if bytes.length = min (sz - k * pgsize) pgsize then
          loadLoop b file pgdir first offset sz count (k + 1) middle
        else .ok (false, middle)) := by
  obtain ⟨table, index⟩ := slot
  rw [entry_found image.m table index found]
  cases read : readi file ((offset + k * pgsize) % 2 ^ 32) (min (sz - k * pgsize) pgsize) with
  | none => simp only [loadLoop, found, read]
  | some bytes => simp only [loadLoop, found, read]

theorem load_loop_safe (loading : Loading b κ₀ m₀ pgdir κ image) (count k : Nat)
    (ok : LoadOk file pgdir first offset sz image count k) :
    ∃ loaded after, loadLoop b file pgdir first offset sz count k image = .ok (loaded, after) ∧
    Loading b κ₀ m₀ pgdir κ after := by
  induction count generalizing image k with
  | zero => exact ⟨true, image, rfl, loading⟩
  | succ count ih =>
    obtain ⟨table, rest⟩ := ok
    obtain ⟨slot, found⟩ := Option.ne_none_iff_exists'.mp table
    rw [load_loop_found found]
    cases read : readi file ((offset + k * pgsize) % 2 ^ 32) (min (sz - k * pgsize) pgsize) with
    | none => exact ⟨false, image, rfl, loading⟩
    | some bytes =>
      rw [read] at rest
      obtain ⟨written, next⟩ := rest
      -- Whatever was stored, the rest of the loop starts from a state that is as good.
      have goOn (middle : Image) (kept : Loading b κ₀ m₀ pgdir κ middle)
          (ok : LoadOk file pgdir first offset sz image count (k + 1) →
            LoadOk file pgdir first offset sz middle count (k + 1)) :
          ∃ loaded after, (if bytes.length = min (sz - k * pgsize) pgsize then
              loadLoop b file pgdir first offset sz count (k + 1) middle
            else .ok (false, middle)) = .ok (loaded, after) ∧
            Loading b κ₀ m₀ pgdir κ after := by
        split
        · rename_i full
          exact ih kept (k + 1) (ok (next full))
        · exact ⟨false, middle, rfl, kept⟩
      by_cases empty : bytes = []
      · have stored (frame : Nat) : storeBytes b image frame bytes = .ok image := if_pos empty
        simp only [stored]
        exact goOn image loading id
      · have member := (written empty).allocated loading
        obtain ⟨content, stored⟩ := store_bytes_allocated loading member bytes
        simp only [stored]
        exact goOn _ (loading.set_page member content)
          (load_ok_set_page loading member content count (k + 1)).mpr

end Loads

def SegmentOk (b : Build) (file : List Byte) (pgdir : Nat) (image : Image) (ph : Proghdr) : Prop :=
  ph.filesz ≤ ph.memsz → ∀ grown,
    grow b pgdir image ((ph.vaddr + ph.memsz) % 2 ^ 32) = .ok (true, grown) →
      ph.vaddr % pgsize = 0 ∧
        LoadOk file pgdir (ph.vaddr / pgsize) ph.off ph.filesz grown (pagesUp ph.filesz) 0

def HeadersOk (b : Build) (file : List Byte) (pgdir : Nat) : Nat → Nat → Image → Prop
  | 0, _, _ => True
  | count + 1, off, image =>
    match readProghdr file off with
    | none => True
    | some ph =>
      if ph.type ≠ elfProgLoad then
        HeadersOk b file pgdir count (off + sizeofProghdr) image
      else
        SegmentOk b file pgdir image ph ∧
          ∀ after, loadSegment b file pgdir image ph = .ok (true, after) →
            HeadersOk b file pgdir count (off + sizeofProghdr) after

section Segments
variable {b : Build} {κ₀ κ : Nat → Kind} {m₀ : Mem} {pgdir : Nat} {image : Image} {file : List Byte}
  {ph : Proghdr}

variable (counting : b.original = false) (strict : b.kallocNull = false)
include counting strict

section
variable (loading : Loading b κ₀ m₀ pgdir κ image)
include loading

theorem load_segment_safe (ok : SegmentOk b file pgdir image ph) :
    Yields (loadSegment b file pgdir image ph)
    (fun result => ∃ κ', Loading b κ₀ m₀ pgdir κ' result.2) (fun stop => stop = .nullRun) := by
  rw [loadSegment]
  split
  · exact ⟨κ, loading⟩
  · rename_i fits
    have spec := grow_spec counting strict loading ((ph.vaddr + ph.memsz) % 2 ^ 32)
    cases grew : grow b pgdir image ((ph.vaddr + ph.memsz) % 2 ^ 32) with
    | error stop => exact (spec.of_error grew).1
    | ok result =>
      obtain ⟨grown, middle⟩ := result
      obtain ⟨κ', kept⟩ := (spec.of_ok grew).1
      rw [ok_bind]
      cases grown with
      | false => exact ⟨κ', kept⟩
      | true =>
        obtain ⟨aligned, loads⟩ := ok (by omega) middle grew
        obtain ⟨loaded, after, returned, final⟩ :=
          load_loop_safe kept (pagesUp ph.filesz) 0 loads
        simp only [loaduvm, aligned, ne_eq, not_true_eq_false, ↓reduceIte, returned]
        exact ⟨κ', final⟩

theorem load_headers_safe (count off : Nat) (ok : HeadersOk b file pgdir count off image) :
    Yields (loadHeaders b file pgdir count off image)
    (fun result => ∃ κ', Loading b κ₀ m₀ pgdir κ' result.2) (fun stop => stop = .nullRun) := by
  induction count generalizing κ image off with
  | zero => exact ⟨κ, loading⟩
  | succ count ih =>
    rw [loadHeaders]
    rw [HeadersOk] at ok
    cases header : readProghdr file off with
    | none => exact ⟨κ, loading⟩
    | some ph =>
      simp only [header] at ok
      simp only
      split
      · rename_i other
        rw [if_pos other] at ok
        exact ih loading _ ok
      · rename_i load
        rw [if_neg load] at ok
        have spec := load_segment_safe counting strict loading ok.1
        cases segment : loadSegment b file pgdir image ph with
        | error stop => exact spec.of_error segment
        | ok result =>
          obtain ⟨loaded, middle⟩ := result
          obtain ⟨κ', kept⟩ := spec.of_ok segment
          rw [ok_bind]
          cases loaded with
          | false => exact ⟨κ', kept⟩
          | true => exact ih kept _ (ok.2 middle segment)

end
end Segments
end Xv6Hacks.ExecConfinement
