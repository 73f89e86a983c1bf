import Mathlib.Computability.Language

/-!
# The pattern matcher of grep

`match`, `matchhere` and `matchstar` of `grep.c` on strings without their final NUL, against
the language of a pattern.
-/

namespace Xv6Hacks.GrepMatch

open Computability

/-- The loop of `matchstar`, over the matcher of the rest of the pattern. -/
def matchstar (rest : List Char → Bool) (c : Char) : List Char → Bool
  | [] => rest []
  | t :: text => rest (t :: text) || ((t == c || c == '.') && matchstar rest c text)

def matchhere : List Char → List Char → Bool
  | [], _ => true
  | c :: '*' :: re, text => matchstar (matchhere re) c text
  | c :: re, text =>
    if c = '$' ∧ re = [] then text.isEmpty
    else match text with
      | [] => false
      | t :: text => (c == '.' || c == t) && matchhere re text

/-- The loop of `match`: the empty rest of the text is looked at too. -/
def matchAnywhere (re : List Char) : List Char → Bool
  | [] => matchhere re []
  | t :: text => matchhere re (t :: text) || matchAnywhere re text

def matchText (re text : List Char) : Bool :=
  match re with
  | '^' :: re => matchhere re text
  | re => matchAnywhere re text

/-- `.` stands for any character, every other character for itself. -/
def stand (c : Char) : Language Char := {s | ∃ t, (c = '.' ∨ c = t) ∧ s = [t]}

/-- The items of a pattern are `c` and `c*`; an unstarred `$` at its end is none. -/
def language : List Char → Language Char
  | [] => 1
  | c :: '*' :: re => (stand c)∗ * language re
  | c :: re => if c = '$' ∧ re = [] then 1 else stand c * language re

def endsAtDollar : List Char → Bool
  | [] => false
  | _ :: '*' :: re => endsAtDollar re
  | c :: re => decide (c = '$' ∧ re = []) || endsAtDollar re

/-- The text begins with a word of the pattern, and ends with it after a `$`. -/
def Begins (re text : List Char) : Prop :=
  ∃ s post, s ++ post = text ∧ s ∈ language re ∧ (endsAtDollar re = true → post = [])

theorem stars_cons {c t : Char} {s : List Char} :
    t :: s ∈ (stand c)∗ ↔ (c = '.' ∨ c = t) ∧ s ∈ (stand c)∗ := by
  rw [← Language.one_add_self_mul_kstar_eq_kstar, Language.mem_add, Language.mem_one,
    Language.mem_mul]
  constructor
  · rintro (empty | ⟨_, ⟨u, stands, rfl⟩, b, stars, same⟩)
    · cases empty
    · cases same
      rw [Language.one_add_self_mul_kstar_eq_kstar]
      exact ⟨stands, stars⟩
  · rintro ⟨stands, stars⟩
    rw [Language.one_add_self_mul_kstar_eq_kstar] at stars
    exact .inr ⟨[t], ⟨t, stands, rfl⟩, s, stars, rfl⟩

theorem matchstar_iff (rest : List Char → Bool) (c : Char) (text : List Char) :
    matchstar rest c text = true ↔ ∃ a b, a ++ b = text ∧ a ∈ (stand c)∗ ∧ rest b = true := by
  induction text with
  | nil => simp [matchstar, Language.nil_mem_kstar]
  | cons t text ih =>
    simp only [matchstar, Bool.or_eq_true, Bool.and_eq_true, ih, beq_iff_eq]
    constructor
    · rintro (now | ⟨stands, a, b, rfl, stars, later⟩)
      · exact ⟨[], t :: text, rfl, Language.nil_mem_kstar _, now⟩
      · exact ⟨t :: a, b, rfl, stars_cons.mpr ⟨by tauto, stars⟩, later⟩
    · rintro ⟨_ | ⟨u, a⟩, b, same, stars, later⟩
      · left
        rwa [← same]
      · cases same
        obtain ⟨stands, stars⟩ := stars_cons.mp stars
        exact .inr ⟨by tauto, a, b, rfl, stars, later⟩

theorem matchhere_iff (re text : List Char) : matchhere re text = true ↔ Begins re text := by
  -- `matchhere` reads the pattern by the cases of `language`.
  induction re using language.induct generalizing text with
  | case1 => simp [matchhere, Begins, language, endsAtDollar]
  | case2 c re ih =>
    simp only [matchhere, matchstar_iff, ih, Begins, language, endsAtDollar, Language.mem_mul]
    constructor
    · rintro ⟨a, _, rfl, stars, s, post, rfl, word, final⟩
      exact ⟨a ++ s, post, List.append_assoc .., ⟨a, stars, s, word, rfl⟩, final⟩
    · rintro ⟨_, post, rfl, ⟨a, stars, s, word, rfl⟩, final⟩
      exact ⟨a, s ++ post, (List.append_assoc ..).symm, stars, s, post, rfl, word, final⟩
  | case3 c re plain dollar =>
    obtain ⟨rfl, rfl⟩ := dollar
    cases text <;> simp [matchhere, Begins, language, endsAtDollar]
  | case4 c re plain other ih =>
    have word : language (c :: re) = stand c * language re := by
      rw [language.eq_3 _ _ plain, if_neg other]
    have final : endsAtDollar (c :: re) = endsAtDollar re := by
      rw [endsAtDollar.eq_3 _ _ plain, decide_eq_false other, Bool.false_or]
    simp only [Begins, word, final, Language.mem_mul]
    cases text with
    | nil =>
      rw [matchhere.eq_3 _ _ plain, if_neg other]
      constructor
      · nofun
      · rintro ⟨_, post, same, ⟨_, ⟨u, -, rfl⟩, s, -, rfl⟩, -⟩
        cases same
    | cons t text =>
      rw [matchhere.eq_4 _ _ _ _ plain, if_neg other, Bool.and_eq_true, ih, Begins]
      simp only [Bool.or_eq_true, beq_iff_eq]
      constructor
      · rintro ⟨stands, s, post, rfl, inRest, last⟩
        exact ⟨t :: s, post, rfl, ⟨[t], ⟨t, stands, rfl⟩, s, inRest, rfl⟩, last⟩
      · rintro ⟨_, post, same, ⟨_, ⟨u, stands, rfl⟩, s, inRest, rfl⟩, last⟩
        cases same
        exact ⟨stands, s, post, rfl, inRest, last⟩

theorem match_anywhere_iff (re text : List Char) : matchAnywhere re text = true ↔
    ∃ pre rest, pre ++ rest = text ∧ Begins re rest := by
  induction text with
  | nil => simp [matchAnywhere, matchhere_iff]
  | cons t text ih =>
    rw [matchAnywhere, Bool.or_eq_true, matchhere_iff, ih]
    constructor
    · rintro (now | ⟨pre, rest, rfl, later⟩)
      · exact ⟨[], t :: text, rfl, now⟩
      · exact ⟨t :: pre, rest, rfl, later⟩
    · rintro ⟨_ | ⟨u, pre⟩, rest, same, begins⟩
      · left
        rwa [← same]
      · cases same
        exact .inr ⟨pre, rest, rfl, begins⟩

/-- The pattern without the `^` that ties it to the beginning of the text. -/
def body : List Char → List Char
  | '^' :: re => re
  | re => re

/-- A pattern is found exactly if a word of its language stands in the text: at the
beginning if the pattern starts with `^`, at the end if an unstarred `$` ends it. -/
theorem match_iff_word (re text : List Char) : matchText re text = true ↔
    ∃ pre s post, pre ++ s ++ post = text ∧ s ∈ language (body re) ∧
      (re.head? = some '^' → pre = []) ∧ (endsAtDollar (body re) = true → post = []) := by
  unfold matchText
  split
  · rename_i re
    rw [matchhere_iff]
    constructor
    · rintro ⟨s, post, rfl, word, last⟩
      exact ⟨[], s, post, rfl, word, fun _ => rfl, last⟩
    · rintro ⟨pre, s, post, rfl, word, first, last⟩
      rw [first rfl]
      exact ⟨s, post, rfl, word, last⟩
  · rename_i free
    have whole : body re = re := body.eq_2 re free
    rw [match_anywhere_iff, whole]
    constructor
    · rintro ⟨pre, _, rfl, s, post, rfl, word, last⟩
      refine ⟨pre, s, post, List.append_assoc .., word, ?_, last⟩
      intro hat
      obtain ⟨rest, rfl⟩ := List.head?_eq_some_iff.mp hat
      exact absurd rfl (free rest)
    · rintro ⟨pre, s, post, rfl, word, -, last⟩
      exact ⟨pre, s ++ post, (List.append_assoc ..).symm, s, post, rfl, word, last⟩

end Xv6Hacks.GrepMatch
