import Xv6Hacks.Outcomes
import Xv6Hacks.ShellScanner

/-!
# The parser of the shell

`parsecmd` and the procedures it calls, and the grammar they are meant for. The
procedures take fuel for their recursion; `parsecmd` gives them enough for every line.
-/

namespace Xv6Hacks.ShellParser

open Outcomes ShellScanner

variable {ts rest : List Token} {fuel : Nat} {s : Ptr} {kinds : List Kind}

def maxargs : Nat := 10

structure Redir where
  file : Ptr
  efile : Ptr
  mode : Nat
  fd : Nat
  deriving DecidableEq, Repr

/-- The command tree. The arguments are pairs of `argv` and `eargv`. -/
inductive Cmd where
  | exec (argv : List (Ptr × Ptr))
  | redir (cmd : Cmd) (redir : Redir)
  | pipe (left right : Cmd)
  | list (left right : Cmd)
  | back (cmd : Cmd)
  deriving DecidableEq, Repr

inductive Stop where
  | missingFile
  | parseblock
  | missingParen
  | syntaxError
  | tooManyArgs
  | leftovers
  | outOfFuel
  deriving DecidableEq, Repr

def oRdonly : Nat := 0x000
def oWronly : Nat := 0x001
def oCreate : Nat := 0x200

/-- The mode and the descriptor of a redirection; `>>` is treated as `>`. -/
def redirMode : Kind → Option (Nat × Nat)
  | .lt => some (oRdonly, 0)
  | .gt => some (oWronly ||| oCreate, 1)
  | .gtgt => some (oWronly ||| oCreate, 1)
  | _ => none

/-- The nodes `parseredirs` puts around a command, the innermost first. `parseexec` goes
on to fill in the arguments of the command inside. -/
def wrap (cmd : Cmd) (redirs : List Redir) : Cmd := redirs.foldl Cmd.redir cmd

def parseredirs : Nat → List Redir → Ptr → Except Stop (List Redir × Ptr)
  | 0, _, _ => .error .outOfFuel
  | fuel + 1, redirs, ps =>
    let found := peek ps ['<', '>']
    if found.1 then
      let tok := gettoken found.2
      let file := gettoken tok.ps
      if file.ret ≠ .word then .error .missingFile
      else
        match redirMode tok.ret with
        | some (mode, fd) =>
          let redir := { file := file.q, efile := file.eq, mode := mode, fd := fd }
          parseredirs fuel (redirs ++ [redir]) file.ps
        | none => parseredirs fuel redirs file.ps
    else .ok (redirs, found.2)

structure Args where
  argv : List (Ptr × Ptr)
  redirs : List Redir
  deriving DecidableEq, Repr

def parseargs : Nat → Args → Ptr → Except Stop (Args × Ptr)
  | 0, _, _ => .error .outOfFuel
  | fuel + 1, args, ps =>
    let stop := peek ps ['|', ')', '&', ';']
    if stop.1 then .ok (args, stop.2)
    else
      let tok := gettoken stop.2
      if tok.ret = .eof then .ok (args, tok.ps)
      else if tok.ret ≠ .word then .error .syntaxError
      else
        let argv := args.argv ++ [(tok.q, tok.eq)]
        if maxargs ≤ argv.length then .error .tooManyArgs
        else do
          let (redirs, ps) ← parseredirs (tok.ps.length + 1) args.redirs tok.ps
          parseargs fuel { argv := argv, redirs := redirs } ps

def parseback : Nat → Cmd → Ptr → Except Stop (Cmd × Ptr)
  | 0, _, _ => .error .outOfFuel
  | fuel + 1, cmd, ps =>
    let found := peek ps ['&']
    if found.1 then parseback fuel (.back cmd) (gettoken found.2).ps else .ok (cmd, found.2)

mutual

def parseline : Nat → Ptr → Except Stop (Cmd × Ptr)
  | 0, _ => .error .outOfFuel
  | fuel + 1, ps => do
    let (cmd, ps) ← parsepipe fuel ps
    let (cmd, ps) ← parseback (ps.length + 1) cmd ps
    let found := peek ps [';']
    if found.1 then do
      let (rest, ps) ← parseline fuel (gettoken found.2).ps
      .ok (.list cmd rest, ps)
    else .ok (cmd, found.2)

def parsepipe : Nat → Ptr → Except Stop (Cmd × Ptr)
  | 0, _ => .error .outOfFuel
  | fuel + 1, ps => do
    let (cmd, ps) ← parseexec fuel ps
    let found := peek ps ['|']
    if found.1 then do
      let (rest, ps) ← parsepipe fuel (gettoken found.2).ps
      .ok (.pipe cmd rest, ps)
    else .ok (cmd, found.2)

def parseexec : Nat → Ptr → Except Stop (Cmd × Ptr)
  | 0, _ => .error .outOfFuel
  | fuel + 1, ps =>
    let found := peek ps ['(']
    if found.1 then parseblock fuel found.2
    else do
      let (redirs, ps) ← parseredirs (found.2.length + 1) [] found.2
      let (args, ps) ← parseargs (ps.length + 1) { argv := [], redirs := redirs } ps
      .ok (wrap (.exec args.argv) args.redirs, ps)

def parseblock : Nat → Ptr → Except Stop (Cmd × Ptr)
  | 0, _ => .error .outOfFuel
  | fuel + 1, ps =>
    let found := peek ps ['(']
    if found.1 then do
      let (cmd, ps) ← parseline fuel (gettoken found.2).ps
      let closed := peek ps [')']
      if closed.1 then do
        let behind := (gettoken closed.2).ps
        let (redirs, ps) ← parseredirs (behind.length + 1) [] behind
        .ok (wrap cmd redirs, ps)
      else .error .missingParen
    else .error .parseblock

end

/-- `parsecmd` up to the call of `nulterminate`. -/
def parsecmd (line : Ptr) : Except Stop Cmd := do
  let (cmd, s) ← parseline (4 * line.length + 4) line
  if (peek s []).2 ≠ [] then .error .leftovers else .ok cmd

/-- `redir*`. -/
inductive Redirs : List Token → List Redir → Prop where
  | nil : Redirs [] []
  | cons {op file : Token} {mode fd : Nat} {ts : List Token} {redirs : List Redir}
      (isOp : redirMode op.kind = some (mode, fd)) (isWord : file.kind = .word)
      (rest : Redirs ts redirs) :
      Redirs (op :: file :: ts)
        ({ file := file.q, efile := file.eq, mode := mode, fd := fd } :: redirs)

/-- `(word redir*)*`. -/
inductive Words : List Token → List (Ptr × Ptr) → List Redir → Prop where
  | nil : Words [] [] []
  | cons {word : Token} {between ts : List Token} {first redirs : List Redir}
      {argv : List (Ptr × Ptr)} (isWord : word.kind = .word) (around : Redirs between first)
      (rest : Words ts argv redirs) :
      Words (word :: (between ++ ts)) ((word.q, word.eq) :: argv) (first ++ redirs)

inductive Symbol where
  | line
  | pipe
  | exec
  deriving DecidableEq, Repr

def backs (cmd : Cmd) : Nat → Cmd
  | 0 => cmd
  | count + 1 => backs (.back cmd) count

inductive Derives : Symbol → List Token → Cmd → Prop where
  | last {ts amps : List Token} {cmd : Cmd} (first : Derives .pipe ts cmd)
      (isAmp : ∀ t ∈ amps, t.kind = .amp) :
      Derives .line (ts ++ amps) (backs cmd amps.length)
  | list {ts amps rest : List Token} {cmd right : Cmd} {semi : Token}
      (first : Derives .pipe ts cmd) (isAmp : ∀ t ∈ amps, t.kind = .amp)
      (isSemi : semi.kind = .semi) (second : Derives .line rest right) :
      Derives .line (ts ++ (amps ++ semi :: rest)) (.list (backs cmd amps.length) right)
  | single {ts : List Token} {cmd : Cmd} (only : Derives .exec ts cmd) : Derives .pipe ts cmd
  | pipe {ts rest : List Token} {cmd right : Cmd} {bar : Token} (first : Derives .exec ts cmd)
      (isBar : bar.kind = .pipe) (second : Derives .pipe rest right) :
      Derives .pipe (ts ++ bar :: rest) (.pipe cmd right)
  | block {ts rest : List Token} {cmd : Cmd} {redirs : List Redir} {lpar rpar : Token}
      (isLpar : lpar.kind = .lpar) (inside : Derives .line ts cmd) (isRpar : rpar.kind = .rpar)
      (around : Redirs rest redirs) :
      Derives .exec (lpar :: (ts ++ rpar :: rest)) (wrap cmd redirs)
  | simple {ts rest : List Token} {first redirs : List Redir} {argv : List (Ptr × Ptr)}
      (around : Redirs ts first) (words : Words rest argv redirs) (few : argv.length < maxargs) :
      Derives .exec (ts ++ rest) (wrap (.exec argv) (first ++ redirs))

/-- A result is as described, and a failure is a panic. -/
abbrev Ends {α : Type} (result : Except Stop α) (good : α → Prop) : Prop :=
  Yields result good fun stop => stop ≠ .outOfFuel

def BeginsWith (kinds : List Kind) (ts : List Token) : Prop :=
  ∃ t rest, ts = t :: rest ∧ t.kind ∈ kinds

abbrev redirKinds : List Kind := [.lt, .gt, .gtgt]

abbrev stopKinds : List Kind := [.pipe, .rpar, .amp, .semi]

theorem begins_cons {t : Token} : BeginsWith kinds (t :: ts) ↔ t.kind ∈ kinds := by
  constructor
  · rintro ⟨_, _, same, member⟩
    cases same
    exact member
  · exact fun member => ⟨t, ts, rfl, member⟩

theorem not_begins_nil : ¬ BeginsWith kinds [] := by
  rintro ⟨_, _, wrong, -⟩
  cases wrong

theorem tokens_fuel (split : tokens s = ts ++ rest) : ts.length < s.length + 1 := by
  have bound := tokens_length s
  rw [split, List.length_append] at bound
  omega

section Peek
variable {toks : List Char} {kinds : List Kind} (marks : Marks toks kinds) {s : Ptr}
include marks

theorem peek_iff : (peek s toks).1 = true ↔ BeginsWith kinds (tokens s) := (peek_spec marks s).1

theorem peek_moves : tokens (peek s toks).2 = tokens s := (peek_spec marks s).2

theorem peek_taken {t : Token} (first : tokens s = t :: ts) (member : t.kind ∈ kinds) :
    (peek s toks).1 = true ∧ (gettoken (peek s toks).2).ret = t.kind ∧
    tokens (gettoken (peek s toks).2).ps = ts := by
  have moved := peek_moves marks (s := s)
  rw [first] at moved
  obtain ⟨kind, -, -, after, -⟩ := gettoken_first moved
  refine ⟨?_, kind, after⟩
  rw [peek_iff marks, first]
  exact begins_cons.mpr member

theorem peek_found (found : (peek s toks).1 = true) :
    ∃ t ts, tokens s = t :: ts ∧ t.kind ∈ kinds ∧ (gettoken (peek s toks).2).ret = t.kind ∧
    tokens (gettoken (peek s toks).2).ps = ts := by
  obtain ⟨t, ts, first, member⟩ := (peek_iff marks).mp found
  exact ⟨t, ts, first, member, (peek_taken marks first member).2⟩

theorem peek_absent (remaining : tokens s = rest) (absent : ¬ BeginsWith kinds rest) :
    ¬ (peek s toks).1 = true ∧ tokens (peek s toks).2 = rest := by
  rw [peek_iff marks, peek_moves marks, remaining]
  exact ⟨absent, rfl⟩

end Peek

theorem redir_marks : Marks ['<', '>'] redirKinds := marks_of (by decide)

theorem stop_marks : Marks ['|', ')', '&', ';'] stopKinds := marks_of (by decide)

theorem amp_marks : Marks ['&'] [.amp] := marks_of (by decide)

theorem semi_marks : Marks [';'] [.semi] := marks_of (by decide)

theorem bar_marks : Marks ['|'] [.pipe] := marks_of (by decide)

theorem lpar_marks : Marks ['('] [.lpar] := marks_of (by decide)

theorem rpar_marks : Marks [')'] [.rpar] := marks_of (by decide)

theorem redir_mode_some {kind : Kind} :
    kind ∈ redirKinds ↔ ∃ mode fd, redirMode kind = some (mode, fd) := by
  cases kind <;> simp [redirMode]

theorem parse_redirs_ends (redirs : List Redir) (enough : (tokens s).length < fuel) :
    Ends (parseredirs fuel redirs s) fun result =>
    ∃ ts found, tokens s = ts ++ tokens result.2 ∧ Redirs ts found ∧
    result.1 = redirs ++ found := by
  induction fuel generalizing s redirs with
  | zero => omega
  | succ fuel ih =>
    rw [parseredirs]
    dsimp only
    split
    next found =>
      obtain ⟨op, rest, first, isOp, opKind, afterOp⟩ := peek_found redir_marks found
      obtain ⟨mode, fd, isMode⟩ := redir_mode_some.mp isOp
      split
      next => exact Stop.noConfusion
      next isWord =>
        rw [opKind, isMode]
        dsimp only
        cases rest with
        | nil =>
          rw [(gettoken_end afterOp).1] at isWord
          exact absurd Kind.noConfusion isWord
        | cons name ts =>
          obtain ⟨kind, q, eq, afterFile, -⟩ := gettoken_first afterOp
          have fewer : (tokens (gettoken (gettoken (peek s ['<', '>']).2).ps).ps).length < fuel := by
            rw [first, List.length_cons, List.length_cons] at enough
            rw [afterFile]
            omega
          refine (ih _ fewer).mono ?_ (fun _ stop => stop)
          intro result parsed
          obtain ⟨ts', later, consumed, derived, collected⟩ := parsed
          rw [afterFile] at consumed
          refine ⟨op :: name :: ts', _, ?_, Redirs.cons isMode ?_ derived, ?_⟩
          · rw [first, consumed]
            rfl
          · rw [← kind]
            exact not_not.mp isWord
          · rw [collected, List.append_assoc, q, eq]
            rfl
    next =>
      refine ⟨[], [], ?_, Redirs.nil, (List.append_nil redirs).symm⟩
      rw [List.nil_append]
      exact (peek_moves redir_marks).symm

theorem parse_redirs_complete {found : List Redir} (derived : Redirs ts found) (redirs : List Redir)
    (consumed : tokens s = ts ++ rest) (follows : ¬ BeginsWith redirKinds rest)
    (enough : ts.length < fuel) :
    ∃ s', parseredirs fuel redirs s = .ok (redirs ++ found, s') ∧ tokens s' = rest := by
  induction derived generalizing fuel s redirs with
  | nil =>
    obtain ⟨less, rfl⟩ : ∃ less, fuel = less + 1 := ⟨fuel - 1, by omega⟩
    obtain ⟨absent, remaining⟩ := peek_absent redir_marks consumed follows
    rw [parseredirs]
    dsimp only
    rw [if_neg absent, List.append_nil]
    exact ⟨_, rfl, remaining⟩
  | @cons op file mode fd ts found isMode isWord later ih =>
    obtain ⟨less, rfl⟩ : ∃ less, fuel = less + 1 := ⟨fuel - 1, by omega⟩
    obtain ⟨present, opKind, afterOp⟩ :=
      peek_taken redir_marks consumed (redir_mode_some.mpr ⟨mode, fd, isMode⟩)
    obtain ⟨kind, q, eq, afterFile, -⟩ := gettoken_first afterOp
    have fewer : ts.length < less := by
      simp only [List.length_cons] at enough
      omega
    rw [parseredirs]
    dsimp only
    rw [if_pos present, if_neg (by rw [kind, isWord]; simp), opKind, isMode]
    dsimp only
    obtain ⟨s', parsed, remaining⟩ := ih
      (redirs ++ [{ file := file.q, efile := file.eq, mode := mode, fd := fd }]) afterFile fewer
    refine ⟨s', ?_, remaining⟩
    rw [q, eq, parsed, List.append_assoc]
    rfl

theorem parse_back_ends (cmd : Cmd) (enough : (tokens s).length < fuel) :
    Ends (parseback fuel cmd s) fun result =>
    ∃ amps, tokens s = amps ++ tokens result.2 ∧ (∀ t ∈ amps, t.kind = .amp) ∧
    result.1 = backs cmd amps.length := by
  induction fuel generalizing s cmd with
  | zero => omega
  | succ fuel ih =>
    rw [parseback]
    split
    next found =>
      obtain ⟨amp, rest, first, isAmp, -, after⟩ := peek_found amp_marks found
      have fewer : (tokens (gettoken (peek s ['&']).2).ps).length < fuel := by
        rw [first, List.length_cons] at enough
        rw [after]
        omega
      refine (ih _ fewer).mono ?_ (fun _ stop => stop)
      intro result parsed
      obtain ⟨amps, consumed, areAmps, wrapped⟩ := parsed
      refine ⟨amp :: amps, ?_, ?_, wrapped⟩
      · rw [first, ← after, consumed]
        rfl
      · intro t member
        rcases List.mem_cons.mp member with here | later
        · rw [here]
          exact List.mem_singleton.mp isAmp
        · exact areAmps t later
    next =>
      refine ⟨[], ?_, fun t wrong => absurd wrong List.not_mem_nil, rfl⟩
      rw [List.nil_append]
      exact (peek_moves amp_marks).symm

theorem parse_back_complete {amps : List Token} (areAmps : ∀ t ∈ amps, t.kind = .amp) (cmd : Cmd)
    (consumed : tokens s = amps ++ rest) (follows : ¬ BeginsWith [.amp] rest)
    (enough : amps.length < fuel) :
    ∃ s', parseback fuel cmd s = .ok (backs cmd amps.length, s') ∧ tokens s' = rest := by
  induction amps generalizing fuel s cmd with
  | nil =>
    obtain ⟨less, rfl⟩ : ∃ less, fuel = less + 1 := ⟨fuel - 1, by omega⟩
    obtain ⟨absent, remaining⟩ := peek_absent amp_marks consumed follows
    rw [parseback]
    rw [if_neg absent]
    exact ⟨_, rfl, remaining⟩
  | cons amp amps ih =>
    obtain ⟨less, rfl⟩ : ∃ less, fuel = less + 1 := ⟨fuel - 1, by omega⟩
    have isAmp := areAmps amp (.head _)
    obtain ⟨present, -, after⟩ := peek_taken amp_marks consumed (List.mem_singleton.mpr isAmp)
    have fewer : amps.length < less := by
      rw [List.length_cons] at enough
      omega
    rw [parseback]
    rw [if_pos present]
    exact ih (fun t member => areAmps t (.tail amp member)) _ after fewer

theorem parse_args_ends (args : Args) (enough : (tokens s).length < fuel) :
    Ends (parseargs fuel args s) fun result =>
    ∃ ts argv redirs, tokens s = ts ++ tokens result.2 ∧ Words ts argv redirs ∧
    result.1.argv = args.argv ++ argv ∧ result.1.redirs = args.redirs ++ redirs ∧
    (args.argv.length < maxargs → result.1.argv.length < maxargs) := by
  induction fuel generalizing s args with
  | zero => omega
  | succ fuel ih =>
    have moved := peek_moves stop_marks (s := s)
    rw [parseargs]
    dsimp only
    split
    next =>
      refine ⟨[], [], [], ?_, Words.nil, (List.append_nil _).symm, (List.append_nil _).symm, id⟩
      rw [List.nil_append]
      exact moved.symm
    next =>
      split
      next atEnd =>
        have ended : tokens s = [] := by
          rw [← moved]
          exact tokens_nil.mpr (gettoken_eof.mp atEnd)
        rw [ended] at moved
        refine ⟨[], [], [], ?_, Words.nil, (List.append_nil _).symm, (List.append_nil _).symm, id⟩
        rw [ended, (gettoken_end moved).2]
        rfl
      next goesOn =>
        cases first : tokens s with
        | nil =>
          rw [first] at moved
          exact absurd (gettoken_end moved).1 goesOn
        | cons word rest =>
          rw [first] at moved
          obtain ⟨kind, q, eq, after, -⟩ := gettoken_first moved
          split
          next => exact Stop.noConfusion
          next isWord =>
            split
            next => exact Stop.noConfusion
            next few =>
              have around := parse_redirs_ends args.redirs (Nat.lt_succ_of_le
                (tokens_length (gettoken (peek s ['|', ')', '&', ';']).2).ps))
              refine around.bind ?_
              intro result parsed
              obtain ⟨between, found, consumed, derived, collected⟩ := parsed
              have fewer : (tokens result.2).length < fuel := by
                rw [after] at consumed
                rw [first, consumed, List.length_cons, List.length_append] at enough
                omega
              refine (ih _ fewer).mono ?_ (fun _ stop => stop)
              intro final parsedRest
              obtain ⟨ts, argv, redirs, later, words, names, files, bound⟩ := parsedRest
              rw [after, later] at consumed
              refine ⟨word :: (between ++ ts), (word.q, word.eq) :: argv, found ++ redirs,
                ?_, Words.cons ?_ derived words, ?_, ?_, ?_⟩
              · rw [consumed, List.cons_append, List.append_assoc]
              · rw [← kind]
                exact not_not.mp isWord
              · rw [names, List.append_assoc, q, eq]
                rfl
              · rw [files, collected, List.append_assoc]
              · intro _
                exact bound (not_le.mp few)

/-- What may stand behind a simple command. -/
def Closes (rest : List Token) : Prop := rest = [] ∨ BeginsWith stopKinds rest

theorem Closes.not_begins (closes : Closes rest) (apart : ∀ kind ∈ stopKinds, kind ∉ kinds) :
    ¬ BeginsWith kinds rest := by
  rcases closes with rfl | ⟨t, ts, rfl, stops⟩
  · exact not_begins_nil
  · rw [begins_cons]
    exact apart t.kind stops

theorem words_not_begin {argv : List (Ptr × Ptr)} {redirs : List Redir}
    (words : Words ts argv redirs) (closes : Closes rest) (apart : ∀ kind ∈ stopKinds, kind ∉ kinds)
    (noWord : Kind.word ∉ kinds) : ¬ BeginsWith kinds (ts ++ rest) := by
  cases words with
  | nil => exact closes.not_begins apart
  | cons isWord around later =>
    rw [List.cons_append, begins_cons, isWord]
    exact noWord

theorem parse_args_complete {argv : List (Ptr × Ptr)} {redirs : List Redir}
    (words : Words ts argv redirs) (args : Args) (consumed : tokens s = ts ++ rest)
    (closes : Closes rest) (few : args.argv.length + argv.length < maxargs)
    (enough : ts.length < fuel) : ∃ s', parseargs fuel args s =
        .ok ({ argv := args.argv ++ argv, redirs := args.redirs ++ redirs }, s') ∧
      tokens s' = rest := by
  induction words generalizing fuel s args with
  | nil =>
    obtain ⟨less, rfl⟩ : ∃ less, fuel = less + 1 := ⟨fuel - 1, by omega⟩
    rw [List.nil_append] at consumed
    rw [parseargs, List.append_nil, List.append_nil]
    dsimp only
    rcases closes with rfl | stops
    · obtain ⟨absent, moved⟩ := peek_absent stop_marks consumed not_begins_nil
      obtain ⟨atEnd, after⟩ := gettoken_end moved
      rw [if_neg absent, if_pos atEnd]
      exact ⟨_, rfl, after⟩
    · rw [← consumed] at stops
      rw [if_pos ((peek_iff stop_marks).mpr stops)]
      exact ⟨_, rfl, (peek_moves stop_marks).trans consumed⟩
  | @cons word between ts first redirs argv isWord around later ih =>
    obtain ⟨less, rfl⟩ : ∃ less, fuel = less + 1 := ⟨fuel - 1, by omega⟩
    rw [List.cons_append, List.append_assoc] at consumed
    obtain ⟨absent, moved⟩ := peek_absent stop_marks consumed (by
      rw [begins_cons, isWord]
      decide)
    obtain ⟨kind, q, eq, after, -⟩ := gettoken_first moved
    have room : ¬ maxargs ≤ (args.argv ++ [(word.q, word.eq)]).length := by
      rw [List.length_append, List.length_singleton]
      rw [List.length_cons] at few
      omega
    obtain ⟨s', parsed, remaining⟩ := parse_redirs_complete around args.redirs after
      (words_not_begin later closes (by decide) (by decide)) (tokens_fuel after)
    have fewer : ts.length < less := by
      rw [List.length_cons, List.length_append] at enough
      omega
    obtain ⟨final, parsedRest, remainingRest⟩ := ih
      { argv := args.argv ++ [(word.q, word.eq)], redirs := args.redirs ++ first } remaining
      (by
        rw [List.length_append, List.length_singleton]
        rw [List.length_cons] at few
        omega) fewer
    refine ⟨final, ?_, remainingRest⟩
    rw [parseargs]
    dsimp only
    rw [if_neg absent, if_neg (by rw [kind, isWord]; simp), if_neg (by rw [kind, isWord]; simp),
      q, eq, if_neg room, parsed, ok_bind]
    rw [parsedRest, List.append_assoc, List.append_assoc]
    rfl

/-- The tokens between `s` and the place where the parser is now. -/
def Parsed (symbol : Symbol) (s : Ptr) (result : Cmd × Ptr) : Prop :=
  ∃ ts, tokens s = ts ++ tokens result.2 ∧ Derives symbol ts result.1

/-- With this much fuel for each token the procedure ends. -/
def Sound (parse : Nat → Ptr → Except Stop (Cmd × Ptr)) (symbol : Symbol) (extra fuel : Nat) : Prop :=
  ∀ s, 4 * (tokens s).length + extra ≤ fuel → Ends (parse fuel s) (Parsed symbol s)

section Sound
variable {fuel extra : Nat} {t : Token}

theorem fuel_left (positive : 0 < extra) (consumed : tokens s = ts ++ t :: rest)
    (enough : 4 * (tokens s).length + extra ≤ fuel + 1) : 4 * rest.length + 4 ≤ fuel := by
  rw [consumed, List.length_append, List.length_cons] at enough
  omega

theorem parseline_sound (pipes : Sound parsepipe .pipe 3 fuel) (lines : Sound parseline .line 4 fuel) :
    Sound parseline .line 4 (fuel + 1) := by
  intro s enough
  rw [parseline]
  refine (pipes s (by omega)).bind ?_
  intro first parsedFirst
  obtain ⟨ts, consumed, derived⟩ := parsedFirst
  refine (parse_back_ends first.1 (Nat.lt_succ_of_le (tokens_length first.2))).bind ?_
  intro second parsedSecond
  obtain ⟨amps, moreConsumed, areAmps, wrapped⟩ := parsedSecond
  rw [moreConsumed] at consumed
  dsimp only
  split
  next found =>
    obtain ⟨semi, rest, shape, isSemi, -, after⟩ := peek_found semi_marks found
    rw [shape, ← List.append_assoc] at consumed
    have fewer := fuel_left (by decide) consumed enough
    rw [← after] at fewer
    refine (lines _ fewer).bind ?_
    intro third parsedThird
    obtain ⟨later, remaining, derivedLater⟩ := parsedThird
    rw [after] at remaining
    refine ⟨ts ++ (amps ++ semi :: later), ?_, ?_⟩
    · rw [consumed, remaining]
      simp
    · rw [wrapped]
      exact Derives.list derived areAmps (List.mem_singleton.mp isSemi) derivedLater
  next =>
    refine ⟨ts ++ amps, ?_, ?_⟩
    · rw [consumed, List.append_assoc, peek_moves semi_marks]
    · rw [wrapped]
      exact Derives.last derived areAmps

theorem parsepipe_sound (execs : Sound parseexec .exec 2 fuel) (pipes : Sound parsepipe .pipe 3 fuel) :
    Sound parsepipe .pipe 3 (fuel + 1) := by
  intro s enough
  rw [parsepipe]
  refine (execs s (by omega)).bind ?_
  intro first parsedFirst
  obtain ⟨ts, consumed, derived⟩ := parsedFirst
  dsimp only
  split
  next found =>
    obtain ⟨bar, rest, shape, isBar, -, after⟩ := peek_found bar_marks found
    rw [shape] at consumed
    have fewer := fuel_left (by decide) consumed enough
    rw [← after] at fewer
    refine (pipes _ (by omega)).bind ?_
    intro second parsedSecond
    obtain ⟨later, remaining, derivedLater⟩ := parsedSecond
    rw [after] at remaining
    refine ⟨ts ++ bar :: later, ?_, Derives.pipe derived (List.mem_singleton.mp isBar) derivedLater⟩
    rw [consumed, remaining]
    simp
  next =>
    refine ⟨ts, ?_, Derives.single derived⟩
    rw [consumed, peek_moves bar_marks]

theorem parseexec_sound (blocks : Sound parseblock .exec 1 fuel) :
    Sound parseexec .exec 2 (fuel + 1) := by
  intro s enough
  have moved := peek_moves lpar_marks (s := s)
  rw [parseexec]
  dsimp only
  split
  next =>
    have fewer : 4 * (tokens (peek s ['(']).2).length + 1 ≤ fuel := by
      rw [moved]
      omega
    refine (blocks _ fewer).mono ?_ (fun _ stop => stop)
    intro result parsed
    unfold Parsed at parsed
    rw [moved] at parsed
    exact parsed
  next =>
    refine (parse_redirs_ends [] (Nat.lt_succ_of_le (tokens_length (peek s ['(']).2))).bind ?_
    intro first parsedFirst
    obtain ⟨ts, found, consumed, derived, collected⟩ := parsedFirst
    rw [moved] at consumed
    refine (parse_args_ends { argv := [], redirs := first.1 }
      (Nat.lt_succ_of_le (tokens_length first.2))).bind ?_
    intro second parsedSecond
    obtain ⟨rest, argv, redirs, moreConsumed, words, names, files, few⟩ := parsedSecond
    refine ⟨ts ++ rest, ?_, ?_⟩
    · rw [consumed, moreConsumed, List.append_assoc]
    · rw [names, files, collected]
      refine Derives.simple derived words ?_
      have bound := few (by change 0 < maxargs; decide)
      rw [names] at bound
      exact bound

theorem parseblock_sound (lines : Sound parseline .line 4 fuel) :
    Sound parseblock .exec 1 (fuel + 1) := by
  intro s enough
  rw [parseblock]
  dsimp only
  split
  next found =>
    obtain ⟨lpar, inner, shape, isLpar, -, after⟩ := peek_found lpar_marks found
    have fewer := fuel_left (by decide) (shape.trans (List.nil_append _).symm) enough
    rw [← after] at fewer
    refine (lines _ fewer).bind ?_
    intro first parsedFirst
    obtain ⟨ts, consumed, derived⟩ := parsedFirst
    rw [after] at consumed
    split
    next foundClose =>
      obtain ⟨rpar, outer, shapeClose, isRpar, -, afterClose⟩ := peek_found rpar_marks foundClose
      refine (parse_redirs_ends [] (Nat.lt_succ_of_le
        (tokens_length (gettoken (peek first.2 [')']).2).ps))).bind ?_
      intro second parsedSecond
      obtain ⟨rest, redirs, remaining, around, collected⟩ := parsedSecond
      rw [afterClose] at remaining
      refine ⟨lpar :: (ts ++ rpar :: rest), ?_, ?_⟩
      · rw [shape, consumed, shapeClose, remaining]
        simp
      · rw [collected, List.nil_append]
        exact Derives.block (List.mem_singleton.mp isLpar) derived (List.mem_singleton.mp isRpar)
          around
    next => exact Stop.noConfusion
  next => exact Stop.noConfusion

end Sound

/-- All four procedures at once, by induction on the fuel they share. -/
theorem parse_sound (fuel : Nat) :
    Sound parseline .line 4 fuel ∧ Sound parsepipe .pipe 3 fuel ∧ Sound parseexec .exec 2 fuel ∧
    Sound parseblock .exec 1 fuel := by
  induction fuel with
  | zero =>
    refine ⟨?_, ?_, ?_, ?_⟩
    all_goals
      intro s enough
      omega
  | succ fuel ih =>
    obtain ⟨lines, pipes, execs, blocks⟩ := ih
    exact ⟨parseline_sound pipes lines, parsepipe_sound execs pipes, parseexec_sound blocks,
      parseblock_sound lines⟩

def parseSymbol : Symbol → Nat → Ptr → Except Stop (Cmd × Ptr)
  | .line => parseline
  | .pipe => parsepipe
  | .exec => parseexec

def extraFuel : Symbol → Nat
  | .line => 4
  | .pipe => 3
  | .exec => 2

/-- The tokens that may stand behind a symbol in a derivation. -/
def followKinds : Symbol → List Kind
  | .line => [.rpar]
  | .pipe => [.rpar, .amp, .semi]
  | .exec => stopKinds

def Follows (symbol : Symbol) (rest : List Token) : Prop :=
  rest = [] ∨ BeginsWith (followKinds symbol) rest

theorem Follows.mono {symbol outer : Symbol} (follows : Follows symbol rest)
    (sub : ∀ kind ∈ followKinds symbol, kind ∈ followKinds outer) : Follows outer rest := by
  rcases follows with empty | ⟨t, ts, shape, member⟩
  · exact .inl empty
  · exact .inr ⟨t, ts, shape, sub t.kind member⟩

theorem Follows.closes {symbol : Symbol} (follows : Follows symbol rest) : Closes rest := by
  rcases follows with empty | ⟨t, ts, shape, member⟩
  · exact .inl empty
  · refine .inr ⟨t, ts, shape, ?_⟩
    revert member
    cases symbol <;> cases t.kind <;> decide

theorem Follows.not_begins {symbol : Symbol} (follows : Follows symbol rest)
    (apart : ∀ kind ∈ followKinds symbol, kind ∉ kinds) : ¬ BeginsWith kinds rest := by
  rcases follows with rfl | ⟨t, ts, rfl, inFollow⟩
  · exact not_begins_nil
  · rw [begins_cons]
    exact apart t.kind inFollow

theorem redirs_not_begin {redirs : List Redir} (around : Redirs ts redirs)
    (behind : ¬ BeginsWith kinds rest) (apart : ∀ kind ∈ redirKinds, kind ∉ kinds) :
    ¬ BeginsWith kinds (ts ++ rest) := by
  cases around with
  | nil => exact behind
  | cons isOp isWord later =>
    rw [List.cons_append, begins_cons]
    exact apart _ (redir_mode_some.mpr ⟨_, _, isOp⟩)

theorem amps_follow {amps : List Token} (areAmps : ∀ t ∈ amps, t.kind = .amp)
    (follows : Follows .pipe rest) : Follows .pipe (amps ++ rest) := by
  cases amps with
  | nil => exact follows
  | cons amp amps =>
    refine .inr ⟨amp, amps ++ rest, rfl, ?_⟩
    rw [areAmps amp (.head _)]
    decide

/-- The procedure of the symbol takes exactly these tokens and builds this tree. -/
def Complete (symbol : Symbol) (ts : List Token) (cmd : Cmd) : Prop :=
  ∀ (rest : List Token) (s : Ptr) (fuel : Nat), tokens s = ts ++ rest → Follows symbol rest →
    4 * ts.length + extraFuel symbol ≤ fuel →
    ∃ s', parseSymbol symbol fuel s = .ok (cmd, s') ∧ tokens s' = rest

section Complete
variable {ts amps rest : List Token} {cmd right : Cmd} {semi bar lpar rpar : Token}
variable {redirs : List Redir} {argv : List (Ptr × Ptr)}

section
variable (first : Complete .pipe ts cmd) (areAmps : ∀ t ∈ amps, t.kind = .amp)
include first areAmps

theorem parse_pipe_back (consumed : tokens s = ts ++ (amps ++ rest)) (follows : Follows .pipe rest)
    (noAmp : ¬ BeginsWith [.amp] rest) (enough : 4 * ts.length + 3 ≤ fuel) :
    ∃ s₁ s₂ : Ptr, parsepipe fuel s = .ok (cmd, s₁) ∧
    parseback (s₁.length + 1) cmd s₁ = .ok (backs cmd amps.length, s₂) ∧ tokens s₂ = rest := by
  obtain ⟨s₁, parsed, remaining⟩ :=
    first (amps ++ rest) s fuel consumed (amps_follow areAmps follows) enough
  obtain ⟨s₂, wrapped, after⟩ :=
    parse_back_complete areAmps cmd remaining noAmp (tokens_fuel remaining)
  exact ⟨s₁, s₂, parsed, wrapped, after⟩

theorem complete_last : Complete .line (ts ++ amps) (backs cmd amps.length) := by
  intro rest s fuel consumed follows enough
  simp only [List.length_append, extraFuel] at enough
  obtain ⟨less, rfl⟩ : ∃ less, fuel = less + 1 := ⟨fuel - 1, by omega⟩
  rw [List.append_assoc] at consumed
  obtain ⟨s₁, s₂, parsed, wrapped, remaining⟩ := parse_pipe_back first areAmps consumed
    (follows.mono (by decide)) (follows.not_begins (by decide)) (by omega : _ ≤ less)
  obtain ⟨absent, final⟩ := peek_absent semi_marks remaining (follows.not_begins (by decide))
  refine ⟨_, ?_, final⟩
  change parseline (less + 1) s = _
  rw [parseline, parsed, ok_bind]
  dsimp only
  rw [wrapped, ok_bind]
  dsimp only
  rw [if_neg absent]

theorem complete_list (isSemi : semi.kind = .semi) (second : Complete .line rest right) :
    Complete .line (ts ++ (amps ++ semi :: rest)) (.list (backs cmd amps.length) right) := by
  intro behind s fuel consumed follows enough
  simp only [List.length_append, List.length_cons, extraFuel] at enough
  obtain ⟨less, rfl⟩ : ∃ less, fuel = less + 1 := ⟨fuel - 1, by omega⟩
  have shape : tokens s = ts ++ (amps ++ semi :: (rest ++ behind)) := by
    rw [consumed]
    simp
  have semiFollows : Follows .pipe (semi :: (rest ++ behind)) := by
    refine .inr ⟨semi, _, rfl, ?_⟩
    rw [isSemi]
    decide
  have noAmp : ¬ BeginsWith [.amp] (semi :: (rest ++ behind)) := by
    rw [begins_cons, isSemi]
    decide
  obtain ⟨s₁, s₂, parsed, wrapped, remaining⟩ := parse_pipe_back first areAmps shape semiFollows
    noAmp (by omega : _ ≤ less)
  obtain ⟨present, -, after⟩ :=
    peek_taken semi_marks remaining (List.mem_singleton.mpr isSemi)
  obtain ⟨s₃, parsedRest, final⟩ := second behind _ less after follows
    (by simp only [extraFuel]; omega)
  refine ⟨s₃, ?_, final⟩
  change parseline less _ = _ at parsedRest
  change parseline (less + 1) s = _
  rw [parseline, parsed, ok_bind]
  dsimp only
  rw [wrapped, ok_bind]
  dsimp only
  rw [if_pos present, parsedRest, ok_bind]

end

theorem complete_single (only : Complete .exec ts cmd) : Complete .pipe ts cmd := by
  intro rest s fuel consumed follows enough
  simp only [extraFuel] at enough
  obtain ⟨less, rfl⟩ : ∃ less, fuel = less + 1 := ⟨fuel - 1, by omega⟩
  obtain ⟨s₁, parsed, remaining⟩ := only rest s less consumed (follows.mono (by decide))
    (by simp only [extraFuel]; omega)
  obtain ⟨absent, final⟩ := peek_absent bar_marks remaining (follows.not_begins (by decide))
  refine ⟨_, ?_, final⟩
  change parseexec less s = _ at parsed
  change parsepipe (less + 1) s = _
  rw [parsepipe, parsed, ok_bind]
  dsimp only
  rw [if_neg absent]

theorem complete_pipe (first : Complete .exec ts cmd) (isBar : bar.kind = .pipe)
    (second : Complete .pipe rest right) :
    Complete .pipe (ts ++ bar :: rest) (.pipe cmd right) := by
  intro behind s fuel consumed follows enough
  simp only [List.length_append, List.length_cons, extraFuel] at enough
  obtain ⟨less, rfl⟩ : ∃ less, fuel = less + 1 := ⟨fuel - 1, by omega⟩
  rw [List.append_assoc, List.cons_append] at consumed
  have barFollows : Follows .exec (bar :: (rest ++ behind)) := by
    refine .inr ⟨bar, _, rfl, ?_⟩
    rw [isBar]
    decide
  obtain ⟨s₁, parsed, remaining⟩ := first _ s less consumed barFollows
    (by simp only [extraFuel]; omega)
  obtain ⟨present, -, after⟩ := peek_taken bar_marks remaining (List.mem_singleton.mpr isBar)
  obtain ⟨s₂, parsedRest, final⟩ := second behind _ less after follows
    (by simp only [extraFuel]; omega)
  refine ⟨s₂, ?_, final⟩
  change parseexec less s = _ at parsed
  change parsepipe less _ = _ at parsedRest
  change parsepipe (less + 1) s = _
  rw [parsepipe, parsed, ok_bind]
  dsimp only
  rw [if_pos present, parsedRest, ok_bind]

theorem complete_block (isLpar : lpar.kind = .lpar) (inside : Complete .line ts cmd)
    (isRpar : rpar.kind = .rpar) (around : Redirs rest redirs) :
    Complete .exec (lpar :: (ts ++ rpar :: rest)) (wrap cmd redirs) := by
  intro behind s fuel consumed follows enough
  simp only [List.length_append, List.length_cons, extraFuel] at enough
  obtain ⟨less, rfl⟩ : ∃ less, fuel = less + 2 := ⟨fuel - 2, by omega⟩
  have shape : tokens s = lpar :: (ts ++ rpar :: (rest ++ behind)) := by
    rw [consumed]
    simp
  have isOpen := List.mem_singleton.mpr isLpar
  -- `parseexec` and `parseblock` both look for the parenthesis.
  obtain ⟨seen, -, -⟩ := peek_taken lpar_marks shape isOpen
  obtain ⟨seenAgain, -, afterOpen⟩ :=
    peek_taken lpar_marks ((peek_moves lpar_marks).trans shape) isOpen
  have rparFollows : Follows .line (rpar :: (rest ++ behind)) :=
    .inr ⟨rpar, _, rfl, List.mem_singleton.mpr isRpar⟩
  obtain ⟨s₁, parsed, remaining⟩ := inside _ _ less afterOpen rparFollows
    (by simp only [extraFuel]; omega)
  obtain ⟨closed, -, afterClose⟩ :=
    peek_taken rpar_marks remaining (List.mem_singleton.mpr isRpar)
  obtain ⟨s₂, parsedRedirs, final⟩ := parse_redirs_complete around [] afterClose
    (follows.not_begins (by decide)) (tokens_fuel afterClose)
  refine ⟨s₂, ?_, final⟩
  change parseline less _ = _ at parsed
  change parseexec (less + 2) s = _
  rw [parseexec]
  dsimp only
  rw [if_pos seen, parseblock]
  dsimp only
  rw [if_pos seenAgain, parsed, ok_bind]
  dsimp only
  rw [if_pos closed, parsedRedirs, ok_bind, List.nil_append]

theorem complete_simple {first : List Redir} (around : Redirs ts first)
    (words : Words rest argv redirs) (few : argv.length < maxargs) :
    Complete .exec (ts ++ rest) (wrap (.exec argv) (first ++ redirs)) := by
  intro behind s fuel consumed follows enough
  simp only [List.length_append, extraFuel] at enough
  obtain ⟨less, rfl⟩ : ∃ less, fuel = less + 1 := ⟨fuel - 1, by omega⟩
  rw [List.append_assoc] at consumed
  obtain ⟨absent, moved⟩ := peek_absent lpar_marks consumed (by
    apply redirs_not_begin around _ (by decide)
    exact words_not_begin words follows.closes (by decide) (by decide))
  obtain ⟨s₁, parsed, remaining⟩ := parse_redirs_complete around [] moved
    (words_not_begin words follows.closes (by decide) (by decide)) (tokens_fuel moved)
  obtain ⟨s₂, parsedWords, final⟩ := parse_args_complete words { argv := [], redirs := first }
    remaining follows.closes (by rw [List.length_nil, Nat.zero_add]; exact few)
    (tokens_fuel remaining)
  refine ⟨s₂, ?_, final⟩
  change parseexec (less + 1) s = _
  rw [parseexec]
  dsimp only
  rw [if_neg absent, parsed, ok_bind, List.nil_append]
  dsimp only
  rw [parsedWords, ok_bind, List.nil_append]

end Complete

theorem parse_complete {symbol : Symbol} {cmd : Cmd} (derived : Derives symbol ts cmd) :
    Complete symbol ts cmd := by
  induction derived with
  | last first areAmps ih => exact complete_last ih areAmps
  | list first areAmps isSemi second ihFirst ihSecond =>
    exact complete_list ihFirst areAmps isSemi ihSecond
  | single only ih => exact complete_single ih
  | pipe first isBar second ihFirst ihSecond => exact complete_pipe ihFirst isBar ihSecond
  | block isLpar inside isRpar around ih => exact complete_block isLpar ih isRpar around
  | simple around words few => exact complete_simple around words few

theorem parsecmd_ends (line : Ptr) :
    Ends (parsecmd line) fun cmd => Derives .line (tokens line) cmd := by
  have bound := tokens_length line
  unfold parsecmd
  refine ((parse_sound (4 * line.length + 4)).1 line (by omega)).bind ?_
  intro result parsed
  obtain ⟨ts, consumed, derived⟩ := parsed
  dsimp only
  split
  next => exact Stop.noConfusion
  next atEnd =>
    have ended : tokens result.2 = [] := by
      rw [peek_place] at atEnd
      exact tokens_nil.mpr (not_not.mp atEnd)
    rw [ended, List.append_nil] at consumed
    rw [consumed]
    exact derived

theorem parsecmd_complete {line : Ptr} {cmd : Cmd} (derived : Derives .line (tokens line) cmd) :
    parsecmd line = .ok cmd := by
  have bound := tokens_length line
  obtain ⟨s, parsed, remaining⟩ := parse_complete derived [] line (4 * line.length + 4)
    (List.append_nil _).symm (.inl rfl) (by simp only [extraFuel]; omega)
  change parseline (4 * line.length + 4) line = _ at parsed
  unfold parsecmd
  rw [parsed, ok_bind]
  dsimp only
  rw [if_neg]
  rw [peek_place, not_not]
  exact tokens_nil.mp remaining

theorem parsecmd_iff (line : Ptr) (cmd : Cmd) :
    parsecmd line = .ok cmd ↔ Derives .line (tokens line) cmd :=
  ⟨fun returned => (parsecmd_ends line).of_ok returned, parsecmd_complete⟩

end Xv6Hacks.ShellParser
