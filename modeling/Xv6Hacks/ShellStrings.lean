import Xv6Hacks.ShellParser

/-!
# The strings of a parsed command

`nulterminate` writes a NUL behind every argument and file name, in the line itself. The
character behind a word is a blank, a symbol or the end of the line, and no word contains
one, so that every string of the tree reads as its token.
-/

namespace Xv6Hacks.ShellParser

open Function ShellScanner

def offset (line s : Ptr) : Nat := line.length - s.length

def buffer (line : Ptr) (place : Nat) : Char := line.getD place '\x00'

def terminate (line : Ptr) (memory : Nat → Char) (s : Ptr) : Nat → Char :=
  update memory (offset line s) '\x00'

def nulterminate (line : Ptr) : Cmd → (Nat → Char) → Nat → Char
  | .exec argv, memory => argv.foldl (fun memory arg => terminate line memory arg.2) memory
  | .redir cmd redir, memory => terminate line (nulterminate line cmd memory) redir.efile
  | .pipe left right, memory => nulterminate line right (nulterminate line left memory)
  | .list left right, memory => nulterminate line right (nulterminate line left memory)
  | .back cmd, memory => nulterminate line cmd memory

/-- The beginnings and ends of the arguments and file names, in the order of
`nulterminate`. -/
def strings : Cmd → List (Ptr × Ptr)
  | .exec argv => argv
  | .redir cmd redir => strings cmd ++ [(redir.file, redir.efile)]
  | .pipe left right => strings left ++ strings right
  | .list left right => strings left ++ strings right
  | .back cmd => strings cmd

def text (string : Ptr × Ptr) : List Char := string.1.take (string.1.length - string.2.length)

structure CString (memory : Nat → Char) (place : Nat) (text : List Char) : Prop where
  chars : ∀ i (bound : i < text.length), memory (place + i) = text[i]
  ended : memory (place + text.length) = '\x00'
  inside : '\x00' ∉ text

section Terminate
variable {line : Ptr}

theorem nulterminate_fold (cmd : Cmd) (memory : Nat → Char) : nulterminate line cmd memory =
    (strings cmd).foldl (fun memory string => terminate line memory string.2) memory := by
  induction cmd generalizing memory with
  | exec argv => rfl
  | redir cmd redir ih => rw [nulterminate, strings, List.foldl_append, ih, List.foldl_cons, List.foldl_nil]
  | pipe left right ihLeft ihRight => rw [nulterminate, strings, List.foldl_append, ihLeft, ihRight]
  | list left right ihLeft ihRight => rw [nulterminate, strings, List.foldl_append, ihLeft, ihRight]
  | back cmd ih => exact ih memory

theorem terminate_place (ends : List (Ptr × Ptr)) (memory : Nat → Char) (place : Nat) :
    ends.foldl (fun memory string => terminate line memory string.2) memory place =
      if ∃ string ∈ ends, offset line string.2 = place then '\x00' else memory place := by
  induction ends generalizing memory with
  | nil => simp
  | cons first rest ih =>
    rw [List.foldl_cons, ih]
    by_cases later : ∃ string ∈ rest, offset line string.2 = place
    · obtain ⟨string, member, here⟩ := later
      rw [if_pos ⟨string, member, here⟩, if_pos ⟨string, .tail first member, here⟩]
    · rw [if_neg later]
      unfold terminate
      by_cases here : place = offset line first.2
      · rw [here, update_self, if_pos ⟨first, .head _, rfl⟩]
      · rw [update_of_ne here, if_neg]
        intro found
        obtain ⟨string, member, same⟩ := found
        rcases List.mem_cons.mp member with isFirst | isLater
        · rw [isFirst] at same
          exact here same.symm
        · exact later ⟨string, isLater, same⟩

end Terminate

/-- The characters from `q` to `eq` are a word of the line. -/
structure WordAt (line q eq : Ptr) : Prop where
  suffix : q <:+ line
  split : q = q.takeWhile wordChar ++ eq

theorem WordAt.mono {line rest q eq : Ptr} (word : WordAt rest q eq) (inside : rest <:+ line) :
    WordAt line q eq := ⟨word.suffix.trans inside, word.split⟩

theorem skip_suffix (s : Ptr) : skip s <:+ s := List.dropWhile_suffix _

theorem scan_suffix (s : Ptr) : (scan s).2 <:+ s := by
  cases s with
  | nil => exact List.suffix_refl []
  | cons c s =>
    simp only [scan]
    split_ifs
    all_goals try exact List.suffix_cons c s
    · exact (List.tail_suffix s).trans (List.suffix_cons c s)
    · exact List.dropWhile_suffix _

theorem scan_word {s : Ptr} (isWord : (scan s).1 = .word) :
    s = s.takeWhile wordChar ++ (scan s).2 := by
  have ended : (scan s).2 = s.dropWhile wordChar := by
    cases s with
    | nil => rfl
    | cons c s =>
      simp only [scan] at isWord ⊢
      split_ifs at isWord ⊢
      rfl
  rw [ended]
  exact List.takeWhile_append_dropWhile.symm

theorem word_tokens {s : Ptr} {t : Token} (member : t ∈ tokens s) (isWord : t.kind = .word) :
    WordAt s t.q t.eq := by
  induction size : s.length using Nat.strong_induction_on generalizing s with
  | _ size ih =>
    rw [tokens_next] at member
    split at member
    next => cases member
    next goesOn =>
      rcases List.mem_cons.mp member with first | later
      · rw [first] at isWord ⊢
        exact ⟨skip_suffix s, scan_word isWord⟩
      · have shorter := gettoken_shorter goesOn
        have inside : (gettoken s).ps <:+ s :=
          (skip_suffix _).trans ((scan_suffix _).trans (skip_suffix s))
        exact (ih (gettoken s).ps.length (by omega) later rfl).mono inside

theorem strings_wrap (cmd : Cmd) (redirs : List Redir) :
    strings (wrap cmd redirs) = strings cmd ++ redirs.map fun redir => (redir.file, redir.efile) := by
  induction redirs generalizing cmd with
  | nil => exact (List.append_nil _).symm
  | cons redir redirs ih =>
    rw [wrap, List.foldl_cons]
    change strings (wrap (.redir cmd redir) redirs) = _
    rw [ih, strings, List.map_cons, List.append_assoc]
    rfl

theorem strings_backs (cmd : Cmd) (count : Nat) : strings (backs cmd count) = strings cmd := by
  induction count generalizing cmd with
  | zero => rfl
  | succ count ih => exact ih (.back cmd)

def IsWord (ts : List Token) (string : Ptr × Ptr) : Prop :=
  ∃ t ∈ ts, t.kind = .word ∧ string = (t.q, t.eq)

variable {string : Ptr × Ptr}

theorem IsWord.mono {ts more : List Token} (isWord : IsWord ts string)
    (sub : ts ⊆ more) : IsWord more string := by
  obtain ⟨t, member, kind, same⟩ := isWord
  exact ⟨t, sub member, kind, same⟩

theorem redirs_words {ts : List Token} {redirs : List Redir} (derived : Redirs ts redirs) (member : string ∈ redirs.map fun redir => (redir.file, redir.efile)) :
    IsWord ts string := by
  induction derived with
  | nil => cases member
  | @cons op file mode fd ts redirs isOp isWord rest ih =>
    rcases List.mem_cons.mp member with here | later
    · exact ⟨file, by simp, isWord, here⟩
    · exact (ih later).mono (by simp)

theorem words_words {ts : List Token} {argv : List (Ptr × Ptr)} {redirs : List Redir}
    (derived : Words ts argv redirs)
    (member : string ∈ argv ∨ string ∈ redirs.map fun redir => (redir.file, redir.efile)) :
    IsWord ts string := by
  induction derived with
  | nil => rcases member with wrong | wrong <;> cases wrong
  | @cons word between ts first redirs argv isWord around rest ih =>
    rw [List.map_append, List.mem_append, List.mem_cons] at member
    rcases member with (here | inArgs) | (inFirst | inRest)
    · exact ⟨word, .head _, isWord, here⟩
    · exact (ih (.inl inArgs)).mono (by simp)
    · exact (redirs_words around inFirst).mono (by simp)
    · exact (ih (.inr inRest)).mono (by simp)

theorem derived_words {symbol : Symbol} {ts : List Token} {cmd : Cmd}
    (derived : Derives symbol ts cmd) (member : string ∈ strings cmd) : IsWord ts string := by
  induction derived with
  | last first areAmps ih =>
    rw [strings_backs] at member
    exact (ih member).mono (by simp)
  | list first areAmps isSemi second ihFirst ihSecond =>
    rw [strings, strings_backs, List.mem_append] at member
    rcases member with left | right
    · exact (ihFirst left).mono (by simp)
    · exact (ihSecond right).mono (by intro t later; simp [later])
  | single only ih => exact ih member
  | pipe first isBar second ihFirst ihSecond =>
    rw [strings, List.mem_append] at member
    rcases member with left | right
    · exact (ihFirst left).mono (by simp)
    · exact (ihSecond right).mono (by simp)
  | block isLpar inside isRpar around ih =>
    rw [strings_wrap, List.mem_append] at member
    rcases member with inner | outer
    · exact (ih inner).mono (by simp)
    · exact (redirs_words around outer).mono (by intro t later; simp [later])
  | simple around words few =>
    rw [strings_wrap, List.map_append, List.mem_append, List.mem_append] at member
    rcases member with inArgs | inFirst | inRest
    · exact (words_words words (.inl inArgs)).mono (by simp)
    · exact (redirs_words around inFirst).mono (by simp)
    · exact (words_words words (.inr inRest)).mono (by simp)

namespace WordAt

variable {line q eq : Ptr} (word : WordAt line q eq)
include word

theorem text_eq : text (q, eq) = q.takeWhile wordChar := by
  have split := word.split
  have lengths := congrArg List.length split
  rw [List.length_append] at lengths
  unfold text
  have count : q.length - eq.length = (q.takeWhile wordChar).length := by omega
  dsimp only
  rw [count]
  conv_lhs => rw [split]
  rw [List.take_left']
  rw [← split]

theorem places : offset line eq = offset line q + (text (q, eq)).length ∧
    offset line q + q.length = line.length := by
  have inside := word.suffix.length_le
  have lengths := congrArg List.length word.split
  rw [List.length_append] at lengths
  rw [word.text_eq]
  unfold offset
  omega

theorem decompose : ∃ before, line = before ++ (text (q, eq) ++ eq) ∧
    offset line q = before.length := by
  obtain ⟨before, shape⟩ := word.suffix
  refine ⟨before, ?_, ?_⟩
  · rw [word.text_eq, ← word.split]
    exact shape.symm
  · unfold offset
    rw [← shape, List.length_append]
    omega

theorem char_at {i : Nat} (bound : i < (text (q, eq)).length) :
    getElem? line (offset line q + i) = some (text (q, eq))[i] ∧
    wordChar (text (q, eq))[i] = true := by
  obtain ⟨before, shape, start⟩ := word.decompose
  constructor
  · rw [start]
    conv_lhs => rw [shape]
    rw [List.getElem?_append_right (by omega), Nat.add_sub_cancel_left,
      List.getElem?_append_left bound, List.getElem?_eq_getElem bound]
  · have member : (text (q, eq))[i] ∈ q.takeWhile wordChar := by
      rw [← word.text_eq]
      exact List.getElem_mem bound
    exact List.mem_takeWhile_imp member

theorem char_behind : offset line eq = line.length ∨
    ∃ c, getElem? line (offset line eq) = some c ∧ wordChar c = false := by
  obtain ⟨before, shape, start⟩ := word.decompose
  obtain ⟨ended, -⟩ := word.places
  have rest : eq = q.dropWhile wordChar := by
    have both := word.split.symm.trans (List.takeWhile_append_dropWhile (p := wordChar)).symm
    exact List.append_cancel_left both
  cases behind : eq with
  | nil =>
    left
    unfold offset
    rw [List.length_nil, Nat.sub_zero]
  | cons c later =>
    right
    refine ⟨c, ?_, ?_⟩
    · rw [← behind, ended, start]
      conv_lhs => rw [shape]
      rw [List.getElem?_append_right (by omega), Nat.add_sub_cancel_left,
        List.getElem?_append_right le_rfl, Nat.sub_self, behind]
      rfl
    · have stops := List.head?_dropWhile_not wordChar q
      rw [← rest, behind] at stops
      exact stops

end WordAt

theorem ends_apart {line q eq q' eq' : Ptr} (word : WordAt line q eq) (other : WordAt line q' eq')
    {i : Nat} (bound : i < (text (q, eq)).length) : offset line eq' ≠ offset line q + i := by
  intro same
  obtain ⟨inside, isWord⟩ := word.char_at bound
  rcases other.char_behind with atEnd | ⟨c, behind, notWord⟩
  · obtain ⟨-, total⟩ := word.places
    have lengths := congrArg List.length word.split
    rw [List.length_append, ← word.text_eq] at lengths
    omega
  · rw [same, inside] at behind
    cases behind
    rw [isWord] at notWord
    cases notWord

theorem strings_terminated {line : Ptr} (terminated : '\x00' ∉ line) {cmd : Cmd}
    (words : ∀ string ∈ strings cmd, WordAt line string.1 string.2)
    (member : string ∈ strings cmd) :
    CString (nulterminate line cmd (buffer line)) (offset line string.1) (text string) := by
  have word := words string member
  constructor
  case chars =>
    intro i bound
    rw [nulterminate_fold, terminate_place, if_neg]
    · unfold buffer
      rw [List.getD_eq_getElem?_getD, (word.char_at bound).1]
      rfl
    · intro written
      obtain ⟨other, inTree, same⟩ := written
      exact ends_apart word (words other inTree) bound same
  case ended =>
    rw [nulterminate_fold, terminate_place, if_pos]
    exact ⟨string, member, word.places.1⟩
  case inside =>
    obtain ⟨before, shape, -⟩ := word.decompose
    intro inText
    apply terminated
    rw [shape]
    exact List.mem_append_right before (List.mem_append_left _ inText)

/-- The parser accepts exactly the lines of its grammar, returns the tree of their
derivation, and the strings of the tree are its tokens. -/
theorem parser_accepts_grammar (line : Ptr) (terminated : '\x00' ∉ line) :
    parsecmd line ≠ .error .outOfFuel ∧
    (∀ cmd, parsecmd line = .ok cmd ↔ Derives .line (tokens line) cmd) ∧
    ∀ cmd, parsecmd line = .ok cmd → ∀ string ∈ strings cmd,
      (∃ t ∈ tokens line, t.kind = .word ∧ string = (t.q, t.eq)) ∧
      CString (nulterminate line cmd (buffer line)) (offset line string.1) (text string) := by
  refine ⟨?_, parsecmd_iff line, ?_⟩
  · intro stopped
    exact (parsecmd_ends line).of_error stopped rfl
  · intro cmd returned string member
    have derived := (parsecmd_iff line cmd).mp returned
    refine ⟨derived_words derived member, strings_terminated terminated ?_ member⟩
    intro other inTree
    obtain ⟨t, inLine, isWord, same⟩ := derived_words derived inTree
    rw [same]
    exact word_tokens inLine isWord

/-- A pipeline with a block, a redirection and a command in the background. -/
def sampleLine : Ptr := "(ls;wc<in)>out|cat a&".toList

theorem sample_line_parsed : '\x00' ∉ sampleLine ∧ (parsecmd sampleLine).toOption.isSome = true ∧
    parsecmd sampleLine ≠ .error .outOfFuel ∧
    (∀ cmd, parsecmd sampleLine = .ok cmd ↔ Derives .line (tokens sampleLine) cmd) ∧
    ∀ cmd, parsecmd sampleLine = .ok cmd → ∀ string ∈ strings cmd,
      (∃ t ∈ tokens sampleLine, t.kind = .word ∧ string = (t.q, t.eq)) ∧
      CString (nulterminate sampleLine cmd (buffer sampleLine)) (offset sampleLine string.1)
        (text string) :=
  ⟨by decide +kernel, by decide +kernel, parser_accepts_grammar sampleLine (by decide +kernel)⟩

end Xv6Hacks.ShellParser
