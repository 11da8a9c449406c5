import Mathlib.Data.List.Chain
import CommandFrame.Proofs.Arguments.Reading
import CommandFrame.Proofs.Completion.Query
import CommandFrame.Proofs.Line.Kinds
import CommandFrame.Proofs.NameMap

/-!
# What the value of an argument is completed from

The value source of an argument is told what the options are set to in the
invocation at the cursor.  It is told nothing of other invocations, whether
they stand before or after it, around it or nested in it.
-/

namespace CommandFrame

open Line (Token TokenKind)

theorem Text.unescape_eq_self {text : Text} (h : '\\' ∉ text) : unescape text = text := by
  induction text with
  | nil => rfl
  | cons c text ih =>
      rw [List.mem_cons, not_or] at h
      rw [unescape_cons (Ne.symm h.1), ih h.2]

namespace Line

/-! ## Settings -/

def Token.reading (token : Token) : TokenKind × Text := (token.kind, token.value)

/-- What the options among the words of an invocation are set to, in order: to the value
right behind the option, or to nothing. -/
def settings : List (TokenKind × Text) → List (Text × Text)
  | (.option, option) :: (.value, value) :: rest => (option.drop 1, value) :: settings rest
  | (.option, option) :: rest =>
      if option = ['-', '-'] then settings rest else (option.drop 1, []) :: settings rest
  | _ :: rest => settings rest
  | [] => []

def IsValueOf (first second : TokenKind × Text) : Prop :=
  second.1 = .value → first.1 = .option ∧ first.2 ≠ ['-', '-']

/-- Every value stands right behind an option. -/
structure ValuesFollow (words : List (TokenKind × Text)) : Prop where
  head : ∀ word ∈ words.head?, word.1 ≠ .value
  chain : words.IsChain IsValueOf

namespace ValuesFollow

variable {words rest : List (TokenKind × Text)} {word : TokenKind × Text}

theorem tail (h : (word :: rest).IsChain IsValueOf)
    (hword : ¬(word.1 = .option ∧ word.2 ≠ ['-', '-'])) : ValuesFollow rest where
  head next hnext hvalue := hword ((List.isChain_cons.1 h).1 next hnext hvalue)
  chain := (List.isChain_cons.1 h).2

theorem concat (h : ValuesFollow words)
    (hword : word.1 = .value → ∃ last ∈ words.getLast?, last.1 = .option ∧ last.2 ≠ ['-', '-']) :
    ValuesFollow (words ++ [word]) where
  head first hfirst hvalue := by
    cases words with
    | nil =>
        obtain rfl : word = first := by simpa using hfirst
        obtain ⟨last, hlast, -⟩ := hword hvalue
        simp at hlast
    | cons next rest => exact h.head first (by simpa using hfirst) hvalue
  chain := by
    refine List.isChain_append.2 ⟨h.chain, List.isChain_singleton word, ?_⟩
    intro last hlast next hnext hvalue
    obtain rfl : word = next := by simpa using hnext
    obtain ⟨found, hfound, hoption⟩ := hword hvalue
    obtain rfl : found = last := Option.mem_unique hfound hlast
    exact hoption

def outline (word : TokenKind × Text) : TokenKind × Text :=
  (word.1, if word.1 = .option then word.2 else [])

theorem map_outline_iff : ValuesFollow (words.map outline) ↔ ValuesFollow words := by
  have hvalue (first second : TokenKind × Text) :
      IsValueOf (outline first) (outline second) ↔ IsValueOf first second := by
    by_cases hoption : first.1 = .option <;> simp [IsValueOf, outline, hoption]
  have hhead : (∀ word ∈ (words.map outline).head?, word.1 ≠ .value) ↔
      ∀ word ∈ words.head?, word.1 ≠ .value := by
    cases words <;> simp [outline]
  constructor
  · rintro ⟨hfirst, hchain⟩
    exact ⟨hhead.1 hfirst, ((List.isChain_map outline).1 hchain).imp fun _ _ => (hvalue _ _).1⟩
  · rintro ⟨hfirst, hchain⟩
    exact ⟨hhead.2 hfirst, (List.isChain_map outline).2 (hchain.imp fun _ _ => (hvalue _ _).2)⟩

end ValuesFollow

theorem Token.value_eq_text {token : Token} (h : '\\' ∉ token.text) : token.value = token.text := by
  unfold Token.value Quote.read
  split
  · rfl
  · exact Text.unescape_eq_self h
  · exact Text.unescape_eq_self h

theorem Invocation.valuesFollow_classify (arity : Arity) (number : Nat) (slots : List Slot) :
    ValuesFollow (classify arity { number } slots) := by
  induction slots using List.reverseRecOn with
  | nil => exact ⟨by simp [classify], List.isChain_nil⟩
  | append_singleton slots slot ih =>
      rw [classify_append]
      cases slot with
      | substitution => simpa [classify] using ih
      | word text =>
          refine ih.concat fun hvalue => ?_
          have hfollows := follows arity number slots
          obtain ⟨-, word, hlast, hoption, hword, -⟩ :=
            hfollows.awaits_iff.1 ((hfollows.kind_spec text).2.1.1 hvalue)
          exact ⟨word, hlast, hoption, hword⟩

end Line

namespace Focus

/-! ## The invocation at the cursor -/

/-- The words of an invocation, around one of them. -/
structure Words where
  before : List (TokenKind × Text)
  kind : TokenKind
  typed : Text
  after : List (TokenKind × Text)
  deriving DecidableEq, Repr

def Words.all (words : Words) : List (TokenKind × Text) :=
  words.before ++ (words.kind, words.typed) :: words.after

def own (focus : Focus) (tokens : List Token) : List Token :=
  tokens.filter (·.invocation = focus.token.invocation)

def words (focus : Focus) : Words where
  before := (focus.own focus.before).map Token.reading
  kind := focus.token.kind
  typed := focus.typed
  after := (focus.own focus.after).map Token.reading

namespace Given

def takeWords (given : Given) (words : List (TokenKind × Text)) : Given :=
  words.foldl (fun given word => given.take word.1 word.2) given

theorem takeTokens_eq (focus : Focus) (given : Given) (tokens : List Token) :
    given.takeTokens focus.token.invocation tokens =
      given.takeWords ((focus.own tokens).map Token.reading) := by
  rw [takeWords, List.foldl_map]
  rfl

theorem insert_insert (values : NameMap Text) (name first second : Text) :
    (values.insert name first).insert name second = values.insert name second := by
  refine NameMap.ext_get? fun key => ?_
  by_cases hkey : name = key <;> simp [hkey]

theorem values_takeWords {words : List (TokenKind × Text)} (h : Line.ValuesFollow words)
    (given : Given) :
    (given.takeWords words).values = given.values.setAll (Line.settings words) := by
  fun_induction Line.settings words generalizing given with
  | case1 option value rest ih =>
      obtain ⟨hvalue, hchain⟩ := List.isChain_cons_cons.1 h.chain
      have hoption : option ≠ ['-', '-'] := (hvalue rfl).2
      have hrest : Line.ValuesFollow rest := .tail hchain (by simp)
      change (takeWords ((given.take .option option).take .value value) rest).values = _
      rw [ih hrest]
      simp [take, hoption, insert_insert, NameMap.setAll]
  | case2 rest hpair ih => exact ih (.tail h.chain (by simp)) given
  | case3 option rest hpair hoption ih =>
      have hrest : Line.ValuesFollow rest := by
        refine ⟨fun next hnext hvalue => ?_, (List.isChain_cons.1 h.chain).2⟩
        obtain ⟨kind, value⟩ := next
        obtain rfl : kind = .value := hvalue
        obtain ⟨later, rfl⟩ := List.head?_eq_some_iff.1 hnext
        exact hpair value later rfl
      change (takeWords (given.take .option option) rest).values = _
      rw [ih hrest]
      simp [take, hoption, NameMap.setAll]
  | case4 word rest hpair hword ih =>
      obtain ⟨kind, text⟩ := word
      have hkind : kind ≠ .option := fun hoption => hword text (by rw [hoption])
      have hvalue : kind ≠ .value := h.head (kind, text) rfl
      have hrest : Line.ValuesFollow rest := .tail h.chain (by simp [hkind])
      change (takeWords (given.take kind text) rest).values = _
      rw [ih hrest]
      cases kind <;> first | rfl | contradiction
  | case5 => rfl

theorem last_takeWords {words : List (TokenKind × Text)} {option : Text}
    (hlast : words.getLast? = some (.option, option)) (hoption : option ≠ ['-', '-'])
    (given : Given) : (given.takeWords words).last = some (option.drop 1) := by
  obtain ⟨init, rfl⟩ := List.getLast?_eq_some_iff.1 hlast
  simp [takeWords, take, hoption]

end Given

/-! ## What completion makes of the words -/

variable {first second focus : Focus}

theorem previous?_eq (focus : Focus) (kind : TokenKind) :
    focus.previous? kind = (focus.own focus.before).reverse.find? (·.kind = kind) := by
  rw [own, ← List.filter_reverse, List.find?_filter, previous?]
  congr 1
  funext token
  rw [Bool.eq_iff_iff]
  simp

theorem map_previous? (focus : Focus) (kind : TokenKind) :
    (focus.previous? kind).map Token.reading =
      focus.words.before.reverse.find? (·.1 = kind) := by
  rw [previous?_eq, words, ← List.map_reverse, List.find?_map]
  rfl

theorem command?_eq (focus : Focus) :
    focus.command? = (focus.words.before.reverse.find? (·.1 = .command)).map (·.2) := by
  rw [← map_previous?, Option.map_map]
  rfl

theorem option?_eq (focus : Focus) :
    focus.option? =
      (focus.words.before.reverse.find? (·.1 = .option)).map fun word => word.2.drop 1 := by
  rw [← map_previous?, Option.map_map]
  rfl

theorem given_of_words (h : second.words = first.words) : second.given = first.given := by
  have hbefore := congrArg Words.before h
  have hkind := congrArg Words.kind h
  have htyped := congrArg Words.typed h
  have hafter := congrArg Words.after h
  simp only [words] at hbefore hkind htyped hafter
  simp only [given, Given.takeTokens_eq, hbefore, hkind, htyped, hafter]

theorem target?_of_words (h : second.words = first.words) (catalog : Catalog) (host : Host)
    (session : Session) :
    second.target? catalog host session = first.target? catalog host session := by
  have hkind : second.token.kind = first.token.kind := congrArg Words.kind h
  have htyped : second.typed = first.typed := congrArg Words.typed h
  have hcommand : second.command? = first.command? := by rw [command?_eq, command?_eq, h]
  have hoption : second.option? = first.option? := by rw [option?_eq, option?_eq, h]
  have hgiven := given_of_words h
  simp only [target?, optionTarget?, valueTarget?, valueArgument?, hkind, htyped, hcommand,
    hoption, hgiven]

/-! ## What the words set -/

theorem value_token_of_find {arity : Line.Arity} {line : Text} {cursor : Nat}
    (h : find? arity line cursor = some focus) : focus.token.value = focus.typed := by
  unfold find? at h
  simp only at h
  split at h
  · rename_i found hfound
    cases h
    obtain ⟨⟨before, token, after⟩, -, rfl⟩ := Option.map_eq_some_iff.1 hfound
    rfl
  · obtain ⟨⟨before, token, after⟩, -, rfl⟩ := Option.map_eq_some_iff.1 h
    cases hquote : token.quote <;> simp [Token.value, Line.Quote.read, hquote]

def tokens (focus : Focus) : List Token := focus.before ++ focus.token :: focus.after

/-- No option in the invocation at the cursor is written with a backslash. -/
def HasPlainOptions (focus : Focus) : Prop :=
  ∀ token ∈ focus.own focus.tokens, token.kind = .option → '\\' ∉ token.text

theorem own_tokens (focus : Focus) :
    focus.own focus.tokens = focus.own focus.before ++ focus.token :: focus.own focus.after := by
  simp [own, tokens]

theorem all_words {arity : Line.Arity} {line : Text} {cursor : Nat}
    (h : find? arity line cursor = some focus) :
    focus.words.all = (focus.own focus.tokens).map Token.reading := by
  rw [own_tokens, Words.all, words, List.map_append, List.map_cons, Token.reading,
    value_token_of_find h]

theorem valuesFollow_of_find {arity : Line.Arity} {line : Text} {cursor : Nat}
    (hfocus : find? arity line cursor = some focus) (hplain : focus.HasPlainOptions) :
    Line.ValuesFollow focus.words.all := by
  obtain ⟨text, other, htokens, hkind, hinvocation, hsame⟩ := exists_tokens_of_find hfocus
  have hwords := Line.tokens_of_invocation arity text focus.token.invocation
  have hfollow := Line.Invocation.valuesFollow_classify arity focus.token.invocation
    (Line.slots focus.token.invocation (Line.steps arity true text))
  rw [← hwords, ← Line.ValuesFollow.map_outline_iff, List.map_map, htokens, List.filter_append,
    List.filter_cons_of_pos (by simpa using hinvocation)] at hfollow
  rw [all_words hfocus, ← Line.ValuesFollow.map_outline_iff, List.map_map]
  convert hfollow using 1
  have hoption : Line.ValuesFollow.outline focus.token.spelling =
      Line.ValuesFollow.outline other.spelling := by
    by_cases hoption : focus.token.kind = .option
    · rw [hsame hoption]
    · simp [Line.ValuesFollow.outline, Token.spelling, hkind, hoption]
  have hreading : ∀ token ∈ focus.own focus.tokens,
      Line.ValuesFollow.outline token.reading = Line.ValuesFollow.outline token.spelling := by
    intro token htoken
    by_cases hkind : token.kind = .option
    · rw [Token.reading, Line.Token.value_eq_text (hplain token htoken hkind), Token.spelling]
    · simp [Line.ValuesFollow.outline, Token.reading, Token.spelling, hkind]
  calc (focus.own focus.tokens).map (Line.ValuesFollow.outline ∘ Token.reading)
      = (focus.own focus.tokens).map (Line.ValuesFollow.outline ∘ Token.spelling) :=
        List.map_congr_left hreading
    _ = _ := by
        rw [own_tokens, List.map_append, List.map_append, List.map_cons, List.map_cons,
          Function.comp_apply, hoption]
        rfl

theorem Given.takeWords_append (given : Given) (before after : List (TokenKind × Text)) :
    given.takeWords (before ++ after) = (given.takeWords before).takeWords after :=
  List.foldl_append

theorem given_of_positional (hfollow : Line.ValuesFollow focus.words.all)
    (hkind : focus.token.kind ≠ .value) :
    focus.given = NameMap.empty.setAll (Line.settings focus.words.all) := by
  have hall := Given.values_takeWords hfollow .none
  rw [Words.all, Given.takeWords_append] at hall
  refine Eq.trans ?_ hall
  simp only [given, Given.takeTokens_eq]
  split
  · contradiction
  · rfl

theorem given_of_value (hfollow : Line.ValuesFollow focus.words.all)
    (hkind : focus.token.kind = .value) {option : Text}
    (hlast : focus.words.before.getLast? = some (.option, option)) :
    focus.given = (NameMap.empty.setAll (Line.settings focus.words.all)).insert (option.drop 1)
      focus.typed := by
  have hoption : option ≠ ['-', '-'] := by
    have hchain := (List.isChain_append.1 hfollow.chain).2.2 _ hlast
    exact (hchain (focus.words.kind, focus.words.typed) rfl hkind).2
  have hall := Given.values_takeWords hfollow .none
  rw [Words.all, Given.takeWords_append] at hall
  have hbefore : (Given.none.takeWords ((focus.own focus.before).map Token.reading)).last =
      some (option.drop 1) :=
    Given.last_takeWords hlast hoption .none
  refine Eq.trans ?_ (congrArg (·.insert (option.drop 1) focus.typed) hall)
  simp only [given, Given.takeTokens_eq, words, hkind, hbefore]
  rfl

/-- The argument of a schema that the word at the cursor is a value of: of the option right
before it, or else of the first positional that is a string. -/
inductive Words.Completes (words : Words) (schema : Schema) : Argument → Prop
  | value {option : Text} {argument : Argument} (hkind : words.kind = .value)
      (hlast : words.before.getLast? = some (.option, option))
      (hargument : schema.option? (option.drop 1) = some argument) :
      Completes words schema argument
  | positional {argument : Argument} (hkind : words.kind = .positional)
      (hargument : schema.positionals.find? (·.type = .string) = some argument) :
      Completes words schema argument

theorem exists_valueArgument {schema : Schema} {argument : Argument}
    (hfollow : Line.ValuesFollow focus.words.all)
    (hcompletes : focus.words.Completes schema argument) :
    ∃ given, focus.valueArgument? schema = some (argument, given) ∧
      given = (NameMap.empty.setAll (Line.settings focus.words.all)).insert argument.name
        focus.typed := by
  refine ⟨_, ?_, rfl⟩
  cases hcompletes with
  | @value option _ hkind hlast hargument =>
      have hoption : focus.option? = some (option.drop 1) := by
        obtain ⟨init, hinit⟩ := List.getLast?_eq_some_iff.1 hlast
        rw [option?_eq, hinit]
        simp
      have hname := Schema.name_of_option? hargument
      have hkind : focus.token.kind = .value := hkind
      rw [valueArgument?, if_pos hkind, hoption, hname, ← given_of_value hfollow hkind hlast]
      simp only [Option.bind_eq_bind, Option.bind_some, hargument]
      rfl
  | positional hkind hargument =>
      have hkind : focus.token.kind ≠ .value := fun hvalue =>
        absurd (hkind.symm.trans hvalue) (by decide)
      rw [valueArgument?, if_neg hkind, hargument, ← given_of_positional hfollow hkind]
      rfl

end Focus

/-- What completes an argument is told of the words of the invocation at the cursor, and of
nothing else in the line: lines that have the same words there, the cursor being at the same
one, have the same candidates.  The argument is set to the typed text, and every other option
that is given to the value right behind where it is given last, or to nothing. -/
theorem Catalog.sees_own_invocation {catalog : Catalog} {line : Text} {cursor : Nat}
    {focus : Focus} (hfocus : Focus.find? catalog.arity line cursor = some focus) (host : Host)
    (session : Session) :
    (∀ line' cursor' focus', Focus.find? catalog.arity line' cursor' = some focus' →
      focus'.words = focus.words →
        focus'.target? catalog host session = focus.target? catalog host session) ∧
    ∀ command entry argument, focus.HasPlainOptions → focus.command? = some command →
      catalog.get? command = some entry → focus.words.Completes entry.schema argument →
        ∃ target given, focus.target? catalog host session = some target ∧
          target.candidates = catalog.candidates host session command argument given ∧
          (∀ values, argument.type = .string →
            entry.values host session argument.name given = some values →
              target.candidates = values) ∧
          given.get? argument.name = some focus.typed ∧
          ∀ name, name ≠ argument.name →
            given.get? name = NameMap.last? (Line.settings focus.words.all) name := by
  refine ⟨fun _ _ _ _ hwords => Focus.target?_of_words hwords catalog host session, ?_⟩
  intro command entry argument hplain hcommand hentry hcompletes
  have hfollow := Focus.valuesFollow_of_find hfocus hplain
  obtain ⟨given, hargument, rfl⟩ := Focus.exists_valueArgument hfollow hcompletes
  have htarget : focus.target? catalog host session = focus.valueTarget? catalog host session := by
    cases hcompletes with
    | value hkind | positional hkind =>
        have hkind : focus.token.kind = _ := hkind
        simp only [Focus.target?, hkind]
  rw [htarget]
  simp only [Focus.valueTarget?, hcommand, hentry, hargument, Option.bind_eq_bind,
    Option.bind_some]
  refine ⟨_, _, rfl, rfl, ?_, ?_, ?_⟩
  · intro values htype hvalues
    simp [candidates, argumentValues, htype, ArgumentType.fixedValues?, hentry, hvalues]
  · simp
  · intro name hname
    rw [NameMap.get?_insert, if_neg (Ne.symm hname), NameMap.get?_setAll]
    simp

namespace Settings

def option (index : Nat) (name : Text) (type : ArgumentType) : Argument :=
  ⟨index, name, true, type, name, "", false, false, false, false, none, []⟩

def schema : Schema :=
  ⟨"t", [option 1 "a" .string, option 2 "b" .string, option 3 "f" .boolean], []⟩

def catalog : Catalog := NameMap.empty.insert "t" ⟨schema, fun _ _ _ given => some given.values⟩

def focus : Focus :=
  ⟨[⟨.command, "t", 0, 1, .bare, 0⟩, ⟨.option, "-f", 2, 4, .bare, 0⟩,
    ⟨.option, "-b", 5, 7, .bare, 0⟩, ⟨.value, "2", 8, 9, .bare, 0⟩,
    ⟨.option, "-a", 10, 12, .bare, 0⟩],
    ⟨.value, "1", 13, 14, .bare, 0⟩,
    [⟨.option, "-b", 15, 17, .bare, 0⟩, ⟨.command, "t", 19, 20, .bare, 1⟩,
    ⟨.option, "-a", 21, 23, .bare, 1⟩, ⟨.value, "9", 24, 25, .bare, 1⟩,
    ⟨.option, "-a", 27, 29, .bare, 0⟩, ⟨.value, "3", 30, 31, .bare, 0⟩,
    ⟨.command, "t", 33, 34, .bare, 2⟩, ⟨.option, "-b", 35, 37, .bare, 2⟩,
    ⟨.value, "8", 38, 39, .bare, 2⟩], "1"⟩

end Settings

theorem Catalog.sees_own_invocation_repeated :
    Focus.find? Settings.catalog.arity "t -f -b 2 -a 1 -b [t -a 9] -a 3; t -b 8" 13 =
        some Settings.focus ∧
      Settings.focus.HasPlainOptions ∧
      ∃ target, ∃ given : NameMap Text,
        Settings.focus.target? Settings.catalog .bare .bare = some target ∧
        target.candidates = given.values ∧ given.get? "a" = some "1" ∧
        given.get? "b" = some [] ∧ given.get? "f" = some [] ∧ given.get? "t" = none := by
  have hfocus : Focus.find? Settings.catalog.arity "t -f -b 2 -a 1 -b [t -a 9] -a 3; t -b 8" 13 =
      some Settings.focus := by
    decide +kernel
  have hplain : Settings.focus.HasPlainOptions := by
    unfold Focus.HasPlainOptions
    decide +kernel
  have hcompletes :
      Settings.focus.words.Completes Settings.schema (Settings.option 1 "a" .string) := by
    have hlast : Settings.focus.words.before.getLast? =
        some (TokenKind.option, ("-a" : Text)) := by
      decide +kernel
    exact .value rfl hlast (by decide +kernel)
  obtain ⟨-, hsettings⟩ := Catalog.sees_own_invocation hfocus .bare .bare
  obtain ⟨target, given, htarget, -, hvalues, htyped, hothers⟩ :=
    hsettings "t" _ _ hplain rfl rfl hcompletes
  refine ⟨hfocus, hplain, target, given, htarget, hvalues _ rfl rfl, htyped, ?_, ?_, ?_⟩
  · exact (hothers "b" (by decide)).trans (by decide +kernel)
  · exact (hothers "f" (by decide)).trans (by decide +kernel)
  · exact (hothers "t" (by decide)).trans (by decide +kernel)

end CommandFrame
