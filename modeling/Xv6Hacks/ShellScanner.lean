import Mathlib.Data.List.Basic
import Mathlib.Data.List.DropRight
import Mathlib.Tactic

/-!
# The scanner of the shell

`gettoken` and `peek` of `sh.c`, and the token sequence of a line. A `char *` into the
line is the part of the line from there to its end `es`, so that `*s` is the first
character or, at the end, the terminating NUL.
-/

namespace Xv6Hacks.ShellScanner

abbrev Ptr := List Char

def whitespace : List Char := [' ', '\t', '\r', '\n', '\x0b']

def symbols : List Char := ['<', '|', '>', '&', ';', '(', ')']

/-- What `gettoken` returns: 0, the symbol, `'+'` for `>>` or `'a'` for a word. -/
inductive Kind where
  | eof
  | pipe
  | lpar
  | rpar
  | semi
  | amp
  | lt
  | gt
  | gtgt
  | word
  deriving DecidableEq, Repr

/-- `while(s < es && strchr(whitespace, *s)) s++`. -/
def skip (s : Ptr) : Ptr := s.dropWhile fun c => c ∈ whitespace

def wordChar (c : Char) : Bool := c ∉ whitespace ∧ c ∉ symbols

/-- The `switch` of `gettoken`: the result and the place behind the token. -/
def scan : Ptr → Kind × Ptr
  | [] => (.eof, [])
  | c :: s =>
    if c = '|' then (.pipe, s)
    else if c = '(' then (.lpar, s)
    else if c = ')' then (.rpar, s)
    else if c = ';' then (.semi, s)
    else if c = '&' then (.amp, s)
    else if c = '<' then (.lt, s)
    else if c = '>' then if s.head? = some '>' then (.gtgt, s.tail) else (.gt, s)
    else (.word, (c :: s).dropWhile wordChar)

structure Scanned where
  ret : Kind
  q : Ptr
  eq : Ptr
  ps : Ptr
  deriving DecidableEq, Repr

def gettoken (ps : Ptr) : Scanned :=
  let q := skip ps
  { ret := (scan q).1, q := q, eq := (scan q).2, ps := skip (scan q).2 }

/-- `peek`, with the place it moves `ps` to. -/
def peek (ps : Ptr) (toks : List Char) : Bool × Ptr :=
  match skip ps with
  | [] => (false, [])
  | c :: s => (decide (c ∈ toks), c :: s)

structure Token where
  kind : Kind
  q : Ptr
  eq : Ptr
  deriving DecidableEq, Repr

def tokensFrom : Nat → Ptr → List Token
  | 0, _ => []
  | fuel + 1, s =>
    let next := gettoken s
    if next.ret = .eof then []
    else { kind := next.ret, q := next.q, eq := next.eq } :: tokensFrom fuel next.ps

/-- Every token takes at least one character. -/
def tokens (s : Ptr) : List Token := tokensFrom (s.length + 1) s

theorem skip_length (s : Ptr) : (skip s).length ≤ s.length := (List.dropWhile_sublist _).length_le

theorem skip_skip (s : Ptr) : skip (skip s) = skip s := List.dropWhile_idempotent _ s

theorem scan_eof {s : Ptr} : (scan s).1 = .eof ↔ s = [] := by
  cases s with
  | nil => exact ⟨fun _ => rfl, fun _ => rfl⟩
  | cons c s =>
    refine ⟨?_, fun wrong => (by cases wrong)⟩
    simp only [scan]
    split_ifs
    all_goals
      intro wrong
      cases wrong

theorem scan_shorter {c : Char} {s : Ptr} (notBlank : c ∉ whitespace) :
    (scan (c :: s)).2.length < (c :: s).length := by
  simp only [scan]
  split_ifs with bar lpar rpar semi amp lt gt
  all_goals try exact Nat.lt_succ_self _
  · rw [List.length_tail, List.length_cons]
    omega
  · have isWord : wordChar c = true := by
      simp only [wordChar, decide_eq_true_eq]
      refine ⟨notBlank, ?_⟩
      simp only [symbols, List.mem_cons, List.not_mem_nil, or_false]
      tauto
    simp only [List.dropWhile_cons, isWord, if_true]
    have bound := (List.dropWhile_sublist wordChar (l := s)).length_le
    simp only [List.length_cons]
    omega

theorem peek_place (s : Ptr) (toks : List Char) : (peek s toks).2 = skip s := by
  unfold peek
  split
  next empty => exact empty.symm
  next shape => exact shape.symm

theorem gettoken_eof {s : Ptr} : (gettoken s).ret = .eof ↔ skip s = [] := scan_eof

theorem skip_head {s rest : Ptr} {c : Char} (shape : skip s = c :: rest) : c ∉ whitespace := by
  have stopped := List.head?_dropWhile_not (fun c => decide (c ∈ whitespace)) s
  unfold skip at shape
  rw [shape] at stopped
  simpa using stopped

theorem gettoken_shorter {s : Ptr} (more : (gettoken s).ret ≠ .eof) :
    (gettoken s).ps.length < s.length := by
  have nonempty : skip s ≠ [] := fun empty => more (gettoken_eof.mpr empty)
  obtain ⟨c, rest, shape⟩ := List.exists_cons_of_ne_nil nonempty
  have consumed := @scan_shorter c rest (skip_head shape)
  calc (gettoken s).ps.length
      ≤ (scan (skip s)).2.length := skip_length _
    _ < (skip s).length := by
        rw [shape]
        exact consumed
    _ ≤ s.length := skip_length s

theorem tokens_from_enough {fuel enough : Nat} {s : Ptr} (more : s.length < fuel)
    (also : s.length < enough) : tokensFrom fuel s = tokensFrom enough s := by
  induction fuel generalizing enough s with
  | zero => omega
  | succ fuel ih =>
    cases enough with
    | zero => omega
    | succ enough =>
      simp only [tokensFrom]
      split
      next => rfl
      next goesOn =>
        have shorter := gettoken_shorter goesOn
        have same := @ih enough (gettoken s).ps (by omega) (by omega)
        rw [same]

theorem tokens_next (s : Ptr) : tokens s = if (gettoken s).ret = .eof then []
    else { kind := (gettoken s).ret, q := (gettoken s).q, eq := (gettoken s).eq } ::
      tokens (gettoken s).ps := by
  rw [tokens, tokensFrom]
  split
  next => rfl
  next goesOn =>
    have shorter := gettoken_shorter goesOn
    rw [tokens, tokens_from_enough shorter (Nat.lt_succ_self _)]

theorem tokens_length (s : Ptr) : (tokens s).length ≤ s.length := by
  induction size : s.length using Nat.strong_induction_on generalizing s with
  | _ size ih =>
    rw [tokens_next]
    split
    next => exact Nat.zero_le _
    next goesOn =>
      have shorter := gettoken_shorter goesOn
      have rest := ih (gettoken s).ps.length (by omega) (gettoken s).ps rfl
      rw [List.length_cons]
      omega

theorem tokens_skip (s : Ptr) : tokens (skip s) = tokens s := by
  have same : gettoken (skip s) = gettoken s := by
    unfold gettoken
    rw [skip_skip]
  rw [tokens_next, tokens_next s, same]

theorem tokens_nil {s : Ptr} : tokens s = [] ↔ skip s = [] := by
  rw [← gettoken_eof, tokens_next]
  split
  next atEnd => exact ⟨fun _ => atEnd, fun _ => rfl⟩
  next goesOn => exact ⟨fun wrong => (by cases wrong), fun atEnd => absurd atEnd goesOn⟩

theorem gettoken_first {s : Ptr} {t : Token} {ts : List Token} (first : tokens s = t :: ts) :
    (gettoken s).ret = t.kind ∧ (gettoken s).q = t.q ∧ (gettoken s).eq = t.eq ∧
    tokens (gettoken s).ps = ts ∧ t.kind ≠ .eof := by
  rw [tokens_next] at first
  split at first
  next => cases first
  next goesOn =>
    cases first
    exact ⟨rfl, rfl, rfl, rfl, goesOn⟩

theorem gettoken_end {s : Ptr} (ended : tokens s = []) :
    (gettoken s).ret = .eof ∧ tokens (gettoken s).ps = [] := by
  have empty := tokens_nil.mp ended
  refine ⟨gettoken_eof.mpr empty, ?_⟩
  unfold gettoken
  rw [empty]
  rfl

/-- A set of characters that begin exactly the tokens of some kinds. -/
def Marks (toks : List Char) (kinds : List Kind) : Prop :=
  ∀ c s, c ∈ toks ↔ (scan (c :: s)).1 ∈ kinds

/-- The kind of the token that begins with `c`, with or without a second `'>'`. -/
def startKind (c : Char) (double : Bool) : Kind :=
  if c = '|' then .pipe else if c = '(' then .lpar else if c = ')' then .rpar
  else if c = ';' then .semi else if c = '&' then .amp else if c = '<' then .lt
  else if c = '>' then if double then .gtgt else .gt else .word

theorem scan_kind (c : Char) (s : Ptr) : (scan (c :: s)).1 = startKind c (s.head? = some '>') := by
  simp only [scan, startKind]
  split_ifs
  all_goals simp_all

theorem start_kind_word {c : Char} (plain : c ∉ symbols) (double : Bool) :
    startKind c double = .word := by
  simp only [symbols, List.mem_cons, List.not_mem_nil, or_false, not_or] at plain
  unfold startKind
  simp [plain]

theorem marks_of {toks : List Char} {kinds : List Kind}
    (table : toks.all (fun c => decide (c ∈ symbols)) = true ∧ Kind.word ∉ kinds ∧
    symbols.all (fun c => decide (∀ double, c ∈ toks ↔ startKind c double ∈ kinds)) = true) :
    Marks toks kinds := by
  obtain ⟨inside, noWord, agree⟩ := table
  simp only [List.all_eq_true, decide_eq_true_eq] at inside agree
  intro c s
  rw [scan_kind]
  by_cases isSymbol : c ∈ symbols
  · exact agree c isSymbol _
  · rw [start_kind_word isSymbol]
    exact ⟨fun member => absurd (inside c member) isSymbol, fun wrong => absurd wrong noWord⟩

theorem peek_spec {toks : List Char} {kinds : List Kind} (marks : Marks toks kinds) (s : Ptr) :
    ((peek s toks).1 = true ↔ ∃ t ts, tokens s = t :: ts ∧ t.kind ∈ kinds) ∧
    tokens (peek s toks).2 = tokens s := by
  cases shape : skip s with
  | nil =>
    have ended := tokens_nil.mpr shape
    unfold peek
    rw [shape, ended]
    refine ⟨⟨fun wrong => (by cases wrong), ?_⟩, rfl⟩
    intro found
    obtain ⟨t, ts, wrong, -⟩ := found
    cases wrong
  | cons c rest =>
    have goesOn : ¬ (gettoken s).ret = .eof := by
      rw [gettoken_eof, shape]
      exact List.cons_ne_nil c rest
    have kind : (gettoken s).ret = (scan (c :: rest)).1 := by
      unfold gettoken
      rw [shape]
    refine ⟨?_, ?_⟩
    · rw [tokens_next, if_neg goesOn]
      unfold peek
      rw [shape]
      simp only [decide_eq_true_eq]
      rw [marks c rest, ← kind]
      constructor
      · intro member
        exact ⟨_, _, rfl, member⟩
      · intro found
        obtain ⟨t, ts, first, member⟩ := found
        cases first
        exact member
    · rw [peek_place, tokens_skip]

end Xv6Hacks.ShellScanner
