import CommandFrame.Proofs.Line.Trace
import CommandFrame.Proofs.Text.Cut

/-!
# Scanning by byte offsets

The scan once more, as nested loops over a byte offset.  The loops cut the line wherever
they look at it, and each round of a loop takes a unit of fuel, so that there is no
result if a cut is out of place or a loop goes on for too long.  There always is one, and
it is the scan.
-/

namespace CommandFrame.Line

def Scan.append (first second : Scan) : Scan :=
  ⟨first.tokens ++ second.tokens, first.complete && second.complete⟩

@[simp] theorem Scan.append_nil (scan : Scan) : scan.append ⟨[], true⟩ = scan := by
  simp [append]

@[simp] theorem Scan.nil_append (scan : Scan) : append ⟨[], true⟩ scan = scan := by
  simp [append]

namespace Indexed

variable (line : Text)

def peek (index : Nat) : Option (Option Char) := (line.from? index).map List.head?

def bump (index : Nat) : Option (Option Char × Nat) := do
  match ← peek line index with
  | none => return (none, index)
  | some c => return (some c, index + c.utf8Size)

def before? (index : Nat) : Option Nat := if 0 < index then some (index - 1) else none

def skipBlanks : Nat → Nat → Option Nat
  | 0, _ => none
  | fuel + 1, index => do
      match ← peek line index with
      | none => return index
      | some c =>
          if isBlank c then skipBlanks fuel (index + 1)
          else if c = '\\' then
            if (← line.from? (index + 1)).head? = some '\n' then skipBlanks fuel (index + 2)
            else return index
          else return index

def skipComment : Nat → Nat → Option Nat
  | 0, _ => none
  | fuel + 1, index => do
      match ← peek line index with
      | none => return index
      | some c =>
          if c = '\n' then return index
          else
            let (_, index) ← bump line index
            skipComment fuel index

/-! ## Words -/

/-- Where the text of a word stops, the index behind the word, and whether it ended. -/
structure Stop where
  stop : Nat
  index : Nat
  closed : Bool
  deriving DecidableEq, Repr

def braceStop : Nat → Nat → Nat → Option Stop
  | 0, _, _ => none
  | fuel + 1, depth, index => do
      match ← bump line index with
      | (none, index) => return ⟨index, index, false⟩
      | (some c, index) =>
          if c = '\\' then
            let (_, index) ← bump line index
            braceStop fuel depth index
          else if c = '{' then braceStop fuel (depth + 1) index
          else if c = '}' then
            if depth - 1 = 0 then return ⟨← before? index, index, true⟩
            else braceStop fuel (depth - 1) index
          else braceStop fuel depth index

def doubleStop : Nat → Nat → Option Stop
  | 0, _ => none
  | fuel + 1, index => do
      match ← bump line index with
      | (none, index) => return ⟨index, index, false⟩
      | (some c, index) =>
          if c = '\\' then
            let (_, index) ← bump line index
            doubleStop fuel index
          else if c = '"' then return ⟨← before? index, index, true⟩
          else doubleStop fuel index

def bareStop (nested : Bool) : Nat → Bool → Nat → Option Stop
  | 0, _, _ => none
  | fuel + 1, closed, index => do
      match ← peek line index with
      | none => return ⟨index, index, closed⟩
      | some c =>
          if endsBare nested c then return ⟨index, index, closed⟩
          else if c = '\\' then
            let (hidden, index) ← bump line (index + 1)
            bareStop nested fuel (closed && hidden.isSome) index
          else
            let (_, index) ← bump line index
            bareStop nested fuel closed index

def word (nested : Bool) (fuel index : Nat) : Option (Quote × Nat × Stop) := do
  match ← peek line index with
  | some '{' => return (.brace, index + 1, ← braceStop line fuel 1 (index + 1))
  | some '"' => return (.double, index + 1, ← doubleStop line fuel (index + 1))
  | _ => return (.bare, index, ← bareStop line nested fuel true index)

def takeWord (arity : Arity) (invocation : Invocation) (text : Text) :
    Option (TokenKind × Invocation) := do
  match invocation.command with
  | none => return (.command, { invocation with command := some text })
  | some name =>
      if invocation.awaitsValue then return (.value, { invocation with awaitsValue := false })
      else if !invocation.optionsDone && text.head? = some '-' then
        if text = "--" then return (.option, { invocation with optionsDone := true })
        else
          let takesValue := (arity name (← text.from? 1)).getD true
          return (.option, { invocation with awaitsValue := takesValue })
      else return (.positional, invocation)

/-! ## Invocations -/

structure Scanner where
  index : Nat
  numbered : Nat
  done : Scan
  deriving DecidableEq, Repr

def Scanner.goTo (scanner : Scanner) (index : Nat) : Scanner := { scanner with index }

def Scanner.fresh (scanner : Scanner) : Invocation × Scanner :=
  ({ number := scanner.numbered }, { scanner with numbered := scanner.numbered + 1 })

/-- What a round of the loop over an invocation comes to. -/
inductive Round
  | ends (scanner : Scanner)
  | goesOn (current : Invocation) (scanner : Scanner)
  | opens (scanner : Scanner)
  deriving DecidableEq, Repr

def takeToken (arity : Arity) (nested : Bool) (fuel : Nat) (current : Invocation)
    (scanner : Scanner) : Option Round := do
  let (quote, start, stop) ← word line nested fuel scanner.index
  let text ← line.slice? start stop.stop
  let (kind, next) ← takeWord arity current text
  let token : Token :=
    { kind, text, start, stop := stop.stop, quote, invocation := current.number }
  let done : Scan := ⟨scanner.done.tokens ++ [token], scanner.done.complete && stop.closed⟩
  return .goesOn next { scanner with index := stop.index, done }

def roundAt (arity : Arity) (brackets : Bool) (fuel : Nat) (nested : Bool) (current : Invocation)
    (scanner : Scanner) (c : Char) : Option Round := do
  let next := scanner.goTo (scanner.index + 1)
  if isSeparator c then
    if current.command.isSome then return .goesOn next.fresh.1 next.fresh.2
    else return .goesOn current next
  else if c = ']' ∧ nested then return .ends next
  else if c = '#' ∧ current.command.isNone then
    return .goesOn current (scanner.goTo (← skipComment line fuel scanner.index))
  else if c = '[' ∧ brackets then return .opens next
  else takeToken line arity nested fuel current scanner

def round (arity : Arity) (brackets : Bool) (fuel : Nat) (nested : Bool) (current : Invocation)
    (scanner : Scanner) : Option Round := do
  let scanner := scanner.goTo (← skipBlanks line fuel scanner.index)
  match ← peek line scanner.index with
  | none => return .ends { scanner with done.complete := scanner.done.complete && !nested }
  | some c => roundAt line arity brackets fuel nested current scanner c

def invocation (arity : Arity) (brackets : Bool) :
    Nat → Bool → Invocation → Scanner → Option Scanner
  | 0, _, _, _ => none
  | fuel + 1, nested, current, scanner => do
      match ← round line arity brackets (fuel + 1) nested current scanner with
      | .ends scanner => return scanner
      | .goesOn current scanner => invocation arity brackets fuel nested current scanner
      | .opens scanner =>
          let scanner ← invocation arity brackets fuel true scanner.fresh.1 scanner.fresh.2
          invocation arity brackets fuel nested current.takeSubstitution scanner

def scan (arity : Arity) (brackets : Bool) : Option Scan :=
  let start := Scanner.fresh ⟨0, 0, ⟨[], true⟩⟩
  (invocation line arity brackets (line.length + 1) false start.1 start.2).map Scanner.done

/-! ## Where a loop gets to -/

variable {line : Text} {index fuel : Nat} {text rest : Text}

theorem peek_eq (h : line.from? index = some text) : peek line index = some text.head? := by
  rw [peek, h, Option.map_some]

theorem bump_nil (h : line.from? index = some []) : bump line index = some (none, index) := by
  rw [bump, peek_eq h]
  rfl

theorem bump_cons {c : Char} (h : line.from? index = some (c :: rest)) :
    bump line index = some (some c, index + c.utf8Size) := by
  rw [bump, peek_eq h]
  rfl

def Stop.ofBody (closing : Text) (body : Body) (index : Nat) : Stop where
  stop := index + Text.byteLength body.text
  index := index + Text.byteLength (body.text ++ bif body.closed then closing else [])
  closed := body.closed

theorem Stop.ofBody_push (closing read : Text) (body : Body) (index : Nat) :
    ofBody closing (body.push read) index = ofBody closing body (index + Text.byteLength read) := by
  simp only [ofBody, Body.text_push, Body.closed_push, Text.byteLength_append, Nat.add_assoc]

theorem before?_add {c : Char} (hc : c.utf8Size = 1) (index : Nat) :
    before? (index + c.utf8Size) = some index := by
  simp [before?, hc]

theorem braceStop_eq {depth : Nat} (h : line.from? index = some text)
    (hfuel : text.length < fuel) :
    braceStop line fuel (depth + 1) index =
      some (Stop.ofBody ['}'] (braceBody depth text) index) := by
  obtain ⟨fuel, rfl⟩ : ∃ rounds, fuel = rounds + 1 := ⟨fuel - 1, by omega⟩
  fun_induction braceBody depth text generalizing fuel index with
  | case1 depth => simp [braceStop, bump_nil h, Stop.ofBody]
  | case2 depth c text ih =>
      obtain ⟨fuel, rfl⟩ : ∃ rounds, fuel = rounds + 1 := ⟨fuel - 1, by grind⟩
      have hhidden := Text.from?_cons h
      have hstop := ih (Text.from?_cons hhidden) fuel (by grind)
      rw [Stop.ofBody_push, braceStop, bump_cons h]
      simpa [bump_cons hhidden, Nat.add_assoc] using hstop
  | case3 text =>
      rw [braceStop, bump_cons h]
      simp [before?_add (c := '}') (by decide), Stop.ofBody]
  | case4 depth text ih =>
      obtain ⟨fuel, rfl⟩ : ∃ rounds, fuel = rounds + 1 := ⟨fuel - 1, by grind⟩
      have hstop := ih (Text.from?_cons h) fuel (by grind)
      rw [Stop.ofBody_push, braceStop, bump_cons h]
      simpa using hstop
  | case5 depth text ih =>
      obtain ⟨fuel, rfl⟩ : ∃ rounds, fuel = rounds + 1 := ⟨fuel - 1, by grind⟩
      have hstop := ih (Text.from?_cons h) fuel (by grind)
      rw [Stop.ofBody_push, braceStop, bump_cons h]
      simpa using hstop
  | case6 depth c text hpair hzero hsucc hopen ih =>
      obtain ⟨fuel, rfl⟩ : ∃ rounds, fuel = rounds + 1 := ⟨fuel - 1, by grind⟩
      have hstop := ih (Text.from?_cons h) fuel (by grind)
      have hclose : c ≠ '}' := by
        rintro rfl
        cases depth with
        | zero => exact hzero rfl rfl
        | succ depth => exact hsucc depth rfl rfl
      rw [Stop.ofBody_push, braceStop, bump_cons h]
      by_cases hescape : c = '\\'
      · cases text with
        | nil =>
            subst hescape
            simpa [bump_nil (Text.from?_cons h)] using hstop
        | cons next text => exact absurd hescape (hpair next text · rfl)
      · simpa [hescape, show c ≠ '{' from hopen, hclose] using hstop

theorem doubleStop_eq (h : line.from? index = some text) (hfuel : text.length < fuel) :
    doubleStop line fuel index = some (Stop.ofBody ['"'] (doubleBody text) index) := by
  obtain ⟨fuel, rfl⟩ : ∃ rounds, fuel = rounds + 1 := ⟨fuel - 1, by omega⟩
  fun_induction doubleBody text generalizing fuel index with
  | case1 => simp [doubleStop, bump_nil h, Stop.ofBody]
  | case2 c text ih =>
      obtain ⟨fuel, rfl⟩ : ∃ rounds, fuel = rounds + 1 := ⟨fuel - 1, by grind⟩
      have hhidden := Text.from?_cons h
      have hstop := ih (Text.from?_cons hhidden) fuel (by grind)
      rw [Stop.ofBody_push, doubleStop, bump_cons h]
      simpa [bump_cons hhidden, Nat.add_assoc] using hstop
  | case3 text =>
      rw [doubleStop, bump_cons h]
      simp [before?_add (c := '"') (by decide), Stop.ofBody]
  | case4 c text hpair hclose ih =>
      obtain ⟨fuel, rfl⟩ : ∃ rounds, fuel = rounds + 1 := ⟨fuel - 1, by grind⟩
      have hstop := ih (Text.from?_cons h) fuel (by grind)
      rw [Stop.ofBody_push, doubleStop, bump_cons h]
      by_cases hescape : c = '\\'
      · cases text with
        | nil =>
            subst hescape
            simpa [bump_nil (Text.from?_cons h)] using hstop
        | cons next text => exact absurd hescape (hpair next text · rfl)
      · simpa [hescape, show c ≠ '"' from hclose] using hstop

theorem endsBare_backslash (nested : Bool) : endsBare nested '\\' = false := by
  cases nested <;> decide

theorem bareStop_eq {nested : Bool} (closed : Bool) (h : line.from? index = some text)
    (hfuel : text.length < fuel) :
    bareStop line nested fuel closed index =
      some { Stop.ofBody [] (bareBody nested text) index with
        closed := closed && (bareBody nested text).closed } := by
  obtain ⟨fuel, rfl⟩ : ∃ rounds, fuel = rounds + 1 := ⟨fuel - 1, by omega⟩
  fun_induction bareBody nested text generalizing fuel index closed with
  | case1 => simp [bareStop, peek_eq h, Stop.ofBody]
  | case2 =>
      obtain ⟨fuel, rfl⟩ : ∃ rounds, fuel = rounds + 1 := ⟨fuel - 1, by grind⟩
      have hend : line.from? (index + 1) = some [] := Text.from?_cons h
      rw [bareStop, peek_eq h]
      simp [endsBare_backslash, bump_nil hend, bareStop, peek_eq hend, Stop.ofBody]
      decide
  | case3 c text ih =>
      obtain ⟨fuel, rfl⟩ : ∃ rounds, fuel = rounds + 1 := ⟨fuel - 1, by grind⟩
      have hhidden : line.from? (index + 1) = some (c :: text) := Text.from?_cons h
      have hstop := ih closed (Text.from?_cons hhidden) fuel (by grind)
      rw [Stop.ofBody_push, bareStop, peek_eq h]
      simpa [endsBare_backslash, bump_cons hhidden, Nat.add_assoc,
        show '\\'.utf8Size = 1 from by decide] using hstop
  | case4 c text hlast hpair hends =>
      rw [bareStop, peek_eq h]
      simp [hends, Stop.ofBody]
  | case5 c text hlast hpair hends ih =>
      obtain ⟨fuel, rfl⟩ : ∃ rounds, fuel = rounds + 1 := ⟨fuel - 1, by grind⟩
      have hstop := ih closed (Text.from?_cons h) fuel (by grind)
      have hescape : c ≠ '\\' := by
        rintro rfl
        cases text with
        | nil => exact hlast rfl rfl
        | cons next text => exact hpair next text rfl rfl
      rw [Stop.ofBody_push, bareStop, peek_eq h]
      simpa [hends, hescape, bump_cons h] using hstop

theorem word_eq {nested closed : Bool} {c : Char} {quote : Quote} {read : Text}
    (h : line.from? index = some (c :: text)) (hfuel : (c :: text).length < fuel)
    (hread : readWord nested c text = (.word quote read closed, rest)) :
    word line nested fuel index =
      some (quote, index + Text.byteLength quote.opening,
        { stop := index + Text.byteLength (quote.opening ++ read)
          index := index + Text.byteLength (Lexeme.word quote read closed).source
          closed }) := by
  have htail : text.length < fuel := Nat.lt_of_succ_lt hfuel
  rw [word, peek_eq h]
  unfold readWord at hread
  split at hread
  · rename_i hbrace
    subst hbrace
    cases hread
    have hinside : line.from? (index + 1) = some text := Text.from?_cons h
    have hsize : '{'.utf8Size = 1 := by decide
    simp [braceStop_eq hinside htail, Stop.ofBody, Lexeme.source, Quote.opening, Quote.closing,
      hsize, Nat.add_assoc]
  split at hread
  · rename_i hbrace hquote
    subst hquote
    cases hread
    have hinside : line.from? (index + 1) = some text := Text.from?_cons h
    have hsize : '"'.utf8Size = 1 := by decide
    simp [doubleStop_eq hinside htail, Stop.ofBody, Lexeme.source, Quote.opening, Quote.closing,
      hsize, Nat.add_assoc]
  · rename_i hbrace hquote
    cases hread
    simp only [List.head?_cons, Option.bind_eq_bind, Option.bind_some]
    split
    · simp_all
    · simp_all
    · simp [bareStop_eq true h hfuel, Stop.ofBody, Lexeme.source, Quote.opening, Quote.closing]

theorem takeWord_eq (arity : Arity) (invocation : Invocation) (text : Text) :
    takeWord arity invocation text = some (invocation.takeWord arity text) := by
  unfold takeWord Invocation.takeWord
  cases invocation.command with
  | none => rfl
  | some name =>
      by_cases hvalue : invocation.awaitsValue = true
      · simp [hvalue]
      by_cases hdone : invocation.optionsDone = true
      · simp [hvalue, hdone]
      cases text with
      | nil => simp [hvalue, hdone]
      | cons c option =>
          by_cases hdash : c = '-'
          · subst hdash
            have hcut : Text.from? ('-' :: option) 1 = some option := Text.from?_append ['-'] option
            by_cases hend : option = ['-'] <;> simp [hvalue, hdone, hcut, hend]
          · simp [hvalue, hdone, hdash]

/-! ## Rounds of an invocation -/

theorem utf8Size_of_isBlank {c : Char} (h : isBlank c = true) : c.utf8Size = 1 := by
  simp only [isBlank, Bool.or_eq_true, decide_eq_true_eq] at h
  rcases h with (rfl | rfl) | rfl <;> decide

theorem utf8Size_of_isSeparator {c : Char} (h : isSeparator c = true) : c.utf8Size = 1 := by
  simp only [isSeparator, Bool.or_eq_true, decide_eq_true_eq] at h
  rcases h with rfl | rfl <;> decide

theorem scanFrom_of_noWord {arity : Arity} {brackets : Bool} {state : State} {offset : Nat}
    {lexeme : Lexeme} (hread : Reads (state.context brackets) text lexeme rest)
    (hword : ∀ quote read closed, lexeme ≠ .word quote read closed) :
    scanFrom arity brackets state offset text =
      scanFrom arity brackets (Step.next arity ⟨state, offset, lexeme⟩)
        (Step.stop ⟨state, offset, lexeme⟩) rest := by
  have htoken : Step.token? arity ⟨state, offset, lexeme⟩ = none := by
    cases htoken : Step.token? arity ⟨state, offset, lexeme⟩ with
    | none => rfl
    | some token =>
        obtain ⟨quote, read, closed, hlexeme, -⟩ := Step.token?_eq_some htoken
        exact absurd hlexeme (hword quote read closed)
  have hclosed : lexeme.isClosed = true := by
    cases lexeme with
    | word quote read closed => exact absurd rfl (hword quote read closed)
    | _ => rfl
  rw [scanFrom_of_reads hread, htoken, hclosed]
  rfl

theorem reads_comment {context : Context} (h : context.fresh = true) (after : Text) :
    Reads context ('#' :: after) (.comment ('#' :: after.takeWhile (· ≠ '\n')))
      (after.dropWhile (· ≠ '\n')) :=
  ⟨'#', after, rfl, by simp [readLexeme, isBlank, isSeparator, h]⟩

theorem exists_readWord (nested : Bool) (c : Char) (after : Text) :
    ∃ quote read closed rest, readWord nested c after = (.word quote read closed, rest) := by
  unfold readWord
  split
  · exact ⟨_, _, _, _, rfl⟩
  · split <;> exact ⟨_, _, _, _, rfl⟩

def Settled (text : Text) : Prop :=
  ∀ c after, text = c :: after → isBlank c = false ∧ ¬(c = '\\' ∧ after.head? = some '\n')

theorem reads_word {context : Context} {c : Char} {after : Text} {lexeme : Lexeme}
    (hsettled : Settled (c :: after)) (hseparator : ¬isSeparator c = true)
    (hclosing : ¬(c = ']' ∧ context.nested = true))
    (hcomment : ¬(c = '#' ∧ context.fresh = true))
    (hopening : ¬(c = '[' ∧ context.brackets = true))
    (hword : readWord context.nested c after = (lexeme, rest)) :
    Reads context (c :: after) lexeme rest := by
  obtain ⟨hblank, hcontinues⟩ := hsettled c after rfl
  refine ⟨c, after, rfl, ?_⟩
  rw [readLexeme, if_neg (by simp [hblank]), if_neg hcontinues, if_neg hseparator, if_neg hclosing,
    if_neg hcomment, if_neg hopening, hword]

theorem skipBlanks_eq (h : line.from? index = some text) (hfuel : text.length < fuel) :
    ∃ stop rest, skipBlanks line fuel index = some stop ∧ line.from? stop = some rest ∧
      rest.length ≤ text.length ∧ Settled rest ∧
      ∀ arity brackets state, scanFrom arity brackets state index text =
        scanFrom arity brackets state stop rest := by
  induction fuel generalizing index text with
  | zero => contradiction
  | succ fuel ih =>
      rw [skipBlanks, peek_eq h]
      cases text with
      | nil => exact ⟨index, [], rfl, h, Nat.le_refl _, by simp [Settled], fun _ _ _ => rfl⟩
      | cons c after =>
          simp only [List.head?_cons, Option.bind_eq_bind, Option.bind_some]
          by_cases hblank : isBlank c = true
          · have hnext := Text.from?_cons h
            rw [utf8Size_of_isBlank hblank] at hnext
            obtain ⟨stop, rest, hskip, hrest, hlength, hsettled, hscan⟩ := ih hnext (by grind)
            refine ⟨stop, rest, by rw [if_pos hblank, hskip], hrest, by grind, hsettled, ?_⟩
            intro arity brackets state
            have hread : Reads (state.context brackets) (c :: after) (.blank c) after :=
              reads_iff.2 ⟨rfl, hblank, trivial⟩
            have hstop : Text.byteLength (Lexeme.blank c).source = 1 := by
              simp [Lexeme.source, utf8Size_of_isBlank hblank]
            rw [scanFrom_of_noWord hread (by simp), Step.stop_mk, hstop]
            exact hscan arity brackets state
          by_cases hcontinues : c = '\\' ∧ after.head? = some '\n'
          · obtain ⟨rfl, hnewline⟩ := hcontinues
            obtain ⟨after, rfl⟩ := List.head?_eq_some_iff.1 hnewline
            have hhidden : line.from? (index + 1) = some ('\n' :: after) := Text.from?_cons h
            obtain ⟨stop, rest, hskip, hrest, hlength, hsettled, hscan⟩ :=
              ih (show line.from? (index + 2) = some after from Text.from?_cons hhidden) (by grind)
            refine ⟨stop, rest, by simp [hblank, hhidden, hskip], hrest, by grind, hsettled, ?_⟩
            intro arity brackets state
            have hread :
                Reads (state.context brackets) ('\\' :: '\n' :: after) .continuation after :=
              reads_iff.2 ⟨rfl, trivial, trivial⟩
            rw [scanFrom_of_noWord hread (by simp)]
            exact hscan arity brackets state
          · refine ⟨index, c :: after, ?_, h, Nat.le_refl _, ?_, fun _ _ _ => rfl⟩
            · rw [if_neg hblank]
              by_cases hescape : c = '\\'
              · subst hescape
                have hhidden : line.from? (index + 1) = some after := Text.from?_cons h
                have hnewline : after.head? ≠ some '\n' := fun heq => hcontinues ⟨rfl, heq⟩
                simp [hhidden, hnewline]
              · simp [hescape]
            · rintro d other hcons
              obtain ⟨rfl, rfl⟩ := List.cons.inj hcons
              exact ⟨by simpa using hblank, hcontinues⟩

theorem skipComment_eq (h : line.from? index = some text) (hfuel : text.length < fuel) :
    skipComment line fuel index =
      some (index + Text.byteLength (text.takeWhile (· ≠ '\n'))) := by
  obtain ⟨fuel, rfl⟩ : ∃ rounds, fuel = rounds + 1 := ⟨fuel - 1, by omega⟩
  induction text generalizing fuel index with
  | nil => simp [skipComment, peek_eq h]
  | cons c text ih =>
      obtain ⟨fuel, rfl⟩ : ∃ rounds, fuel = rounds + 1 := ⟨fuel - 1, by grind⟩
      rw [skipComment, peek_eq h]
      by_cases hnewline : c = '\n'
      · simp [hnewline]
      · have hstop := ih (Text.from?_cons h) fuel (by grind)
        simpa [hnewline, bump_cons h, Nat.add_assoc] using hstop

/-! ## The loop is the scan -/

def resume (arity : Arity) (brackets : Bool) : List Invocation → Scanner → Text → Scan
  | [], _, _ => ⟨[], true⟩
  | parent :: outer, scanner, rest =>
      scanFrom arity brackets ⟨parent.takeSubstitution, outer, scanner.numbered⟩ scanner.index rest

def Scanner.whole (arity : Arity) (brackets : Bool) (outer : List Invocation)
    (current : Invocation) (scanner : Scanner) (text : Text) : Scan :=
  scanner.done.append
    (scanFrom arity brackets ⟨current, outer, scanner.numbered⟩ scanner.index text)

def Ends (line : Text) (arity : Arity) (brackets : Bool) (outer : List Invocation) (bound : Nat)
    (whole : Scan) (scanner : Scanner) : Prop :=
  ∃ rest, line.from? scanner.index = some rest ∧ rest.length ≤ bound ∧
    scanner.done.append (resume arity brackets outer scanner rest) = whole

def GoesOn (line : Text) (arity : Arity) (brackets : Bool) (outer : List Invocation)
    (bound : Nat) (whole : Scan) (current : Invocation) (scanner : Scanner) : Prop :=
  ∃ rest, line.from? scanner.index = some rest ∧ rest.length < bound ∧
    scanner.whole arity brackets outer current rest = whole

/-- A round hands on the whole of a scan. -/
def Round.Keeps (line : Text) (arity : Arity) (brackets : Bool) (outer : List Invocation)
    (current : Invocation) (bound : Nat) (whole : Scan) : Round → Prop
  | .ends scanner => Ends line arity brackets outer bound whole scanner
  | .goesOn next scanner => GoesOn line arity brackets outer bound whole next scanner
  | .opens scanner =>
      GoesOn line arity brackets (current :: outer) bound whole scanner.fresh.1 scanner.fresh.2

variable {arity : Arity} {brackets : Bool} {outer : List Invocation} {current : Invocation}
  {scanner : Scanner} {c : Char} {after : Text}

theorem keeps_separator (h : line.from? scanner.index = some (c :: after))
    (hseparator : isSeparator c = true) :
    (if current.command.isSome then
      Round.goesOn (scanner.goTo (scanner.index + 1)).fresh.1
        (scanner.goTo (scanner.index + 1)).fresh.2
    else .goesOn current (scanner.goTo (scanner.index + 1))).Keeps line arity brackets outer current
      (after.length + 1) (scanner.whole arity brackets outer current (c :: after)) := by
  have hread : Reads (State.context ⟨current, outer, scanner.numbered⟩ brackets)
      (c :: after) (.separator c) after := reads_iff.2 ⟨rfl, hseparator, trivial⟩
  have hsize := utf8Size_of_isSeparator hseparator
  have hnext : line.from? (scanner.index + 1) = some after := hsize ▸ Text.from?_cons h
  rw [Scanner.whole, scanFrom_of_noWord hread (by simp)]
  cases hcommand : current.command with
  | none =>
      refine ⟨after, hnext, Nat.lt_succ_self _, ?_⟩
      simp [Scanner.whole, Scanner.goTo, Step.next, State.advance, hcommand, Lexeme.source, hsize]
  | some name =>
      refine ⟨after, hnext, Nat.lt_succ_self _, ?_⟩
      simp [Scanner.whole, Scanner.goTo, Scanner.fresh, Step.next, State.advance, hcommand,
        Lexeme.source, hsize]

theorem keeps_closing (h : line.from? scanner.index = some (']' :: after))
    (hnested : (!outer.isEmpty) = true) :
    (Round.ends (scanner.goTo (scanner.index + 1))).Keeps line arity brackets outer current
      (after.length + 1) (scanner.whole arity brackets outer current (']' :: after)) := by
  have hread : Reads (State.context ⟨current, outer, scanner.numbered⟩ brackets)
      (']' :: after) .closing after := reads_iff.2 ⟨rfl, hnested, trivial⟩
  rw [Scanner.whole, scanFrom_of_noWord hread (by simp)]
  refine ⟨after, Text.from?_cons h, Nat.le_succ _, ?_⟩
  cases outer with
  | nil => contradiction
  | cons parent outer => rfl

theorem keeps_comment (h : line.from? scanner.index = some ('#' :: after))
    (hfresh : current.command.isNone = true) :
    (Round.goesOn current (scanner.goTo (scanner.index +
      Text.byteLength ('#' :: after.takeWhile (· ≠ '\n'))))).Keeps line arity brackets outer current
        (after.length + 1) (scanner.whole arity brackets outer current ('#' :: after)) := by
  have hcontext : (State.context ⟨current, outer, scanner.numbered⟩ brackets).fresh = true := hfresh
  have hread := reads_comment hcontext after
  have hsource : '#' :: after =
      ('#' :: after.takeWhile (· ≠ '\n')) ++ after.dropWhile (· ≠ '\n') := by simp
  have hshorter : (after.dropWhile (· ≠ '\n')).length ≤ after.length :=
    (List.dropWhile_sublist _).length_le
  rw [Scanner.whole, scanFrom_of_noWord hread (by simp)]
  exact ⟨_, Text.from?_add (hsource ▸ h), Nat.lt_succ_of_le hshorter, rfl⟩

theorem keeps_opening (h : line.from? scanner.index = some ('[' :: after))
    (hbrackets : brackets = true) :
    (Round.opens (scanner.goTo (scanner.index + 1))).Keeps line arity brackets outer current
      (after.length + 1) (scanner.whole arity brackets outer current ('[' :: after)) := by
  have hread : Reads (State.context ⟨current, outer, scanner.numbered⟩ brackets)
      ('[' :: after) .opening after := reads_iff.2 ⟨rfl, hbrackets, trivial⟩
  rw [Scanner.whole, scanFrom_of_noWord hread (by simp)]
  exact ⟨after, Text.from?_cons h, Nat.lt_succ_self _, rfl⟩

theorem takeToken_keeps {quote : Quote} {read : Text} {closed : Bool}
    (h : line.from? scanner.index = some (c :: after)) (hfuel : (c :: after).length < fuel)
    (hword : readWord (!outer.isEmpty) c after = (.word quote read closed, rest))
    (hread : Reads (State.context ⟨current, outer, scanner.numbered⟩ brackets)
      (c :: after) (.word quote read closed) rest) :
    ∃ round, takeToken line arity (!outer.isEmpty) fuel current scanner = some round ∧
      round.Keeps line arity brackets outer current (after.length + 1)
        (scanner.whole arity brackets outer current (c :: after)) := by
  have hsource := hread.source
  have hshorter : rest.length < after.length + 1 := by
    have hlength := congrArg List.length hsource
    have hpos := List.length_pos_iff.2 hread.source_ne_nil
    simp only [List.length_cons, List.length_append] at hlength
    omega
  have hstart : line.from? (scanner.index + Text.byteLength quote.opening) =
      some (read ++ ((bif closed then quote.closing else []) ++ rest)) := by
    refine Text.from?_add ?_
    rw [h, hsource, Lexeme.source_word]
    simp
  have hslice := Text.slice?_add hstart
  rw [Nat.add_assoc, ← Text.byteLength_append] at hslice
  unfold takeToken
  simp only [word_eq h hfuel hword, hslice, takeWord_eq, Option.bind_eq_bind, Option.bind_some]
  refine ⟨_, rfl, rest, Text.from?_add (hsource ▸ h), hshorter, ?_⟩
  rw [Scanner.whole, Scanner.whole, scanFrom_of_reads hread]
  simp [Scan.append, State.wordToken, Step.next, State.advance, Lexeme.isClosed,
    Bool.and_assoc, Nat.add_assoc]

theorem Ends.of_le {bound bound' : Nat} {whole : Scan}
    (h : Ends line arity brackets outer bound whole scanner) (hbound : bound ≤ bound') :
    Ends line arity brackets outer bound' whole scanner := by
  obtain ⟨rest, hrest, hlength, hwhole⟩ := h
  exact ⟨rest, hrest, Nat.le_trans hlength hbound, hwhole⟩

theorem Round.Keeps.of_le {round : Round} {bound bound' : Nat} {whole : Scan}
    (h : round.Keeps line arity brackets outer current bound whole) (hbound : bound ≤ bound') :
    round.Keeps line arity brackets outer current bound' whole := by
  cases round with
  | ends scanner => exact Ends.of_le h hbound
  | goesOn next scanner | opens scanner =>
      obtain ⟨rest, hrest, hlength, hwhole⟩ := h
      exact ⟨rest, hrest, Nat.lt_of_lt_of_le hlength hbound, hwhole⟩

theorem exists_roundAt (hsettled : Settled (c :: after))
    (h : line.from? scanner.index = some (c :: after)) (hfuel : (c :: after).length < fuel) :
    ∃ round, roundAt line arity brackets fuel (!outer.isEmpty) current scanner c = some round ∧
      round.Keeps line arity brackets outer current (after.length + 1)
        (scanner.whole arity brackets outer current (c :: after)) := by
  unfold roundAt
  by_cases hseparator : isSeparator c = true
  · rw [if_pos hseparator]
    exact ⟨_, (apply_ite some ..).symm, keeps_separator h hseparator⟩
  rw [if_neg hseparator]
  by_cases hclosing : c = ']' ∧ (!outer.isEmpty) = true
  · rw [if_pos hclosing]
    obtain ⟨rfl, hnested⟩ := hclosing
    exact ⟨_, rfl, keeps_closing h hnested⟩
  rw [if_neg hclosing]
  by_cases hcomment : c = '#' ∧ current.command.isNone = true
  · rw [if_pos hcomment, skipComment_eq h hfuel]
    obtain ⟨rfl, hfresh⟩ := hcomment
    exact ⟨_, rfl, keeps_comment h hfresh⟩
  rw [if_neg hcomment]
  by_cases hopening : c = '[' ∧ brackets = true
  · rw [if_pos hopening]
    obtain ⟨rfl, hbrackets⟩ := hopening
    exact ⟨_, rfl, keeps_opening h hbrackets⟩
  rw [if_neg hopening]
  obtain ⟨quote, read, closed, rest, hword⟩ := exists_readWord (!outer.isEmpty) c after
  exact takeToken_keeps h hfuel hword
    (reads_word hsettled hseparator hclosing hcomment hopening hword)

theorem exists_round (outer : List Invocation) (current : Invocation)
    (h : line.from? scanner.index = some text) (hfuel : text.length < fuel) :
    ∃ round, Indexed.round line arity brackets fuel (!outer.isEmpty) current scanner = some round ∧
      round.Keeps line arity brackets outer current text.length
        (scanner.whole arity brackets outer current text) := by
  obtain ⟨stop, settled, hskip, hstop, hlength, hsettled, hscan⟩ := skipBlanks_eq h hfuel
  have hwhole : scanner.whole arity brackets outer current text =
      (scanner.goTo stop).whole arity brackets outer current settled :=
    congrArg scanner.done.append (hscan arity brackets _)
  have hstop : line.from? (scanner.goTo stop).index = some settled := hstop
  rw [Indexed.round, hskip, hwhole]
  simp only [Option.bind_eq_bind, Option.bind_some]
  rw [peek_eq hstop]
  cases settled with
  | nil =>
      refine ⟨_, rfl, [], hstop, Nat.zero_le _, ?_⟩
      cases outer <;> simp [Scanner.whole, Scanner.goTo, resume, Scan.append]
  | cons c after =>
      have hround := Nat.lt_of_le_of_lt hlength hfuel
      obtain ⟨round, hround, hkeeps⟩ := exists_roundAt hsettled hstop hround
      exact ⟨round, hround, hkeeps.of_le hlength⟩

theorem exists_invocation (outer : List Invocation) (current : Invocation)
    (h : line.from? scanner.index = some text) (hfuel : text.length < fuel) :
    ∃ next, invocation line arity brackets fuel (!outer.isEmpty) current scanner = some next ∧
      Ends line arity brackets outer text.length
        (scanner.whole arity brackets outer current text) next := by
  induction fuel generalizing text outer current scanner with
  | zero => contradiction
  | succ fuel ih =>
      obtain ⟨round, hround, hkeeps⟩ := exists_round outer current h hfuel
      rw [invocation, hround]
      simp only [Option.bind_eq_bind, Option.bind_some]
      cases round with
      | ends next => exact ⟨next, rfl, hkeeps⟩
      | goesOn next scanner =>
          obtain ⟨rest, hrest, hlength, hwhole⟩ := hkeeps
          obtain ⟨last, hrun, hends⟩ := ih outer next hrest (by omega)
          rw [hwhole] at hends
          exact ⟨last, hrun, hends.of_le (by omega)⟩
      | opens scanner =>
          obtain ⟨rest, hrest, hlength, hwhole⟩ := hkeeps
          obtain ⟨inner, hinner, rest', hrest', hlength', hleft⟩ :=
            ih (current :: outer) scanner.fresh.1 hrest (by omega)
          rw [hwhole] at hleft
          obtain ⟨last, hrun, hends⟩ := ih outer current.takeSubstitution hrest' (by omega)
          have hinner' : invocation line arity brackets fuel true scanner.fresh.1 scanner.fresh.2 =
              some inner := hinner
          have hsame : inner.whole arity brackets outer current.takeSubstitution rest' = _ := hleft
          rw [hsame] at hends
          dsimp only
          rw [hinner', Option.bind_some]
          exact ⟨last, hrun, hends.of_le (by omega)⟩

/-- Scanning by byte offsets never cuts out of place and always ends, with the scan. -/
theorem scan_eq (arity : Arity) (brackets : Bool) (line : Text) :
    scan line arity brackets = some (Line.scan arity brackets line) := by
  obtain ⟨next, hrun, rest, -, -, hdone⟩ :=
    @exists_invocation line _ _ arity brackets ⟨0, 1, ⟨[], true⟩⟩ [] { number := 0 }
      (Text.from?_zero line) (Nat.lt_succ_self line.length)
  have hscan : next.done = Line.scan arity brackets line := by
    simpa [resume, Scanner.whole, Line.scan, State.start] using hdone
  rw [← hscan]
  exact congrArg (Option.map Scanner.done) hrun

end Indexed

end CommandFrame.Line
