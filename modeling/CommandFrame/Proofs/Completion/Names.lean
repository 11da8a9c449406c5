import CommandFrame.Proofs.Completion.ReadBack
import CommandFrame.Proofs.Line.Names
import CommandFrame.Proofs.NameMap
import CommandFrame.Proofs.Text.Candidates

/-!
# Completing a completed name

Commands and options that are plain names are written as they are, and a name
that has been completed stays: with the cursor in it the line is completed to
itself.  This holds even where a new word is carried on by what stood behind
the cursor, since that can be no part of a name.
-/

namespace CommandFrame

open Line (Token Quote)

/-- The completion leaves the line as it is, and would put the cursor where it
is put already. -/
def Completion.Keeps (completion : Completion) (line : Text) (cursor : Nat) : Prop :=
  completion.apply line = line ∧
    ∀ again after, completion = .replaced again after → again = line ∧ after = cursor

namespace Completion

theorem keeps_unchanged (line : Text) (cursor : Nat) : unchanged.Keeps line cursor :=
  ⟨rfl, nofun⟩

theorem keeps_candidates (found : List Text) (line : Text) (cursor : Nat) :
    (candidates found).Keeps line cursor := ⟨rfl, nofun⟩

theorem keeps_ite (done : Prop) [Decidable done] (line : Text) (cursor : Nat) :
    (if done then unchanged else replaced line cursor).Keeps line cursor := by
  split
  · exact keeps_unchanged line cursor
  · refine ⟨rfl, fun again after h => ?_⟩
    cases h
    exact ⟨rfl, rfl⟩

end Completion

namespace Catalog

/-- All commands and options are called by plain names. -/
structure HasPlainNames (catalog : Catalog) : Prop where
  command : ∀ name ∈ catalog.keys, Text.IsName name
  option : ∀ entry ∈ catalog.values, ∀ argument ∈ entry.schema.arguments,
    argument.isOption = true → Text.IsName argument.name

theorem HasPlainNames.target {catalog : Catalog} (h : catalog.HasPlainNames) {host : Host}
    {session : Session} {focus : Focus} {target : CompletionTarget}
    (hkind : focus.token.kind = .command ∨ focus.token.kind = .option)
    (htarget : focus.target? catalog host session = some target) :
    target.exactSpace = true ∧ ∀ name ∈ target.candidates, Text.IsName name ∧
      (focus.token.kind = .option → name.head? = some '-') := by
  rcases hkind with hkind | hkind
  · simp only [Focus.target?, hkind, Option.some.injEq] at htarget
    subst htarget
    exact ⟨rfl, fun name hname => ⟨h.command name hname, by simp [hkind]⟩⟩
  · simp only [Focus.target?, hkind, Focus.optionTarget?, Option.bind_eq_bind,
      Option.bind_eq_some_iff] at htarget
    obtain ⟨command, -, entry, hentry, htarget⟩ := htarget
    cases htarget
    refine ⟨rfl, fun name hname => ?_⟩
    obtain ⟨argument, hargument, rfl⟩ := List.mem_map.1 hname
    obtain ⟨hlisted, hshown⟩ := List.mem_filter.1 hargument
    have hplain := h.option entry (NameMap.mem_values_of_get? hentry) argument hlisted
      (Bool.and_eq_true_iff.1 hshown).1
    exact ⟨hplain.cons (by decide), fun _ => rfl⟩

end Catalog

namespace Focus

/-! ## Finding the word again -/

theorem splitAt?_append {test : Token → Bool} {before : List Token} {token : Token}
    (hbefore : ∀ earlier ∈ before, test earlier = false) (htoken : test token = true)
    (after : List Token) : splitAt? test (before ++ token :: after) = some (before, token, after) := by
  induction before with
  | nil => simp [splitAt?, htoken]
  | cons first before ih =>
      rw [List.forall_mem_cons] at hbefore
      simp [splitAt?, hbefore.1, ih hbefore.2]

theorem find?_of_tokens {arity : Line.Arity} {line : Text} {cursor : Nat}
    {before after : List Token} {token : Token}
    (htokens : Line.tokens arity line = before ++ token :: after)
    (hcontains : token.contains (Text.byteLength (Text.splitBytes cursor line).1) = true) :
    find? arity line cursor = some ⟨before, token, after, token.value⟩ := by
  have hlt := before_lt_of_tokens htokens
  have hbefore : ∀ earlier ∈ before,
      earlier.contains (Text.byteLength (Text.splitBytes cursor line).1) = false := by
    intro earlier hearlier
    have hstop := hlt earlier hearlier
    simp only [Token.contains, Bool.and_eq_true, decide_eq_true_eq] at hcontains
    simp only [Token.contains, Bool.and_eq_false_iff, decide_eq_false_iff_not]
    omega
  simp only [find?, onToken?, htokens, splitAt?_append hbefore hcontains, Option.map_some]

theorem StandsIn.find?_word {arity : Line.Arity} {line passed tail body word after : Text}
    {focus : Focus} {reached : Line.State} {closed : Bool}
    (h : focus.StandsIn arity line passed tail reached)
    (hread : Line.Reads (reached.context true) (focus.token.quote.opening ++ body)
      (.word focus.token.quote word closed) after)
    {position : Nat} (hstart : focus.token.start ≤ position)
    (hstop : position ≤ focus.token.start + Text.byteLength word) :
    ∃ later, find? arity (passed ++ focus.token.quote.opening ++ body) position =
      some ⟨focus.before,
        reached.wordToken arity (0 + Text.byteLength passed) focus.token.quote word, later,
        focus.token.quote.read word⟩ := by
  have htokens := h.tokens_eq body
  rw [Line.scanFrom_of_reads hread] at htokens
  refine ⟨_, find?_of_tokens htokens ?_⟩
  have hbefore := h.start_eq
  have hle := Text.byteLength_splitBytes_le position
    (passed ++ focus.token.quote.opening ++ body)
  have hge := Text.le_byteLength_splitBytes (hbefore ▸ hstart) body
  rw [h.start_eq_add] at hstop
  rw [Text.byteLength_append] at hge
  refine Bool.and_eq_true_iff.2 ⟨decide_eq_true ?_, decide_eq_true ?_⟩
  · simp only [Line.State.wordToken]
    omega
  · simp only [Line.State.wordToken]
    omega

/-! ## Completing it again -/

theorem target?_congr {first second : Focus} (catalog : Catalog) (host : Host) (session : Session)
    (hbefore : second.before = first.before)
    (hinvocation : second.token.invocation = first.token.invocation)
    (hkind : second.token.kind = first.token.kind)
    (hname : first.token.kind = .command ∨ first.token.kind = .option) :
    second.target? catalog host session = first.target? catalog host session := by
  have hcommand : second.command? = first.command? := by
    simp only [command?, previous?, hbefore, hinvocation]
  rcases hname with hfirst | hfirst
  · simp only [target?, hkind, hfirst]
  · simp only [target?, hkind, hfirst, optionTarget?, hcommand]

theorem reduce_shared {again : Focus} {typed : Text} {target : CompletionTarget} (line : Text)
    (htyped : again.typed = target.shared typed)
    (hfound : Text.candidatesFor typed target.candidates ≠ []) :
    again.reduce line target =
      if Text.isExact (Text.candidatesFor typed target.candidates) = true then
        again.replace line (target.shared typed) target.exactSpace
      else .candidates (Text.candidatesFor typed target.candidates) := by
  have hsame : Text.candidatesFor (target.shared typed) target.candidates =
      Text.candidatesFor typed target.candidates := Text.candidatesFor_commonStart hfound
  unfold reduce
  rw [htyped, hsame]
  cases hexact : Text.isExact (Text.candidatesFor typed target.candidates) with
  | true => simp [hfound, hexact, CompletionTarget.shared]
  | false => simp [hfound, hexact, CompletionTarget.shared]

theorem head?_behind {focus : Focus} (line : Text) (hquote : focus.token.quote = .bare) :
    (focus.behind line true).head? = some ' ' ∨ (focus.behind line true).head? = some '\t' := by
  simp only [behind, hquote]
  generalize (Text.splitBytes focus.token.stop line).2 = rest
  by_cases hspace : rest.head? = some ' ' ∨ rest.head? = some '\t'
  · have hsome : (decide (rest.head? = some ' ') || decide (rest.head? = some '\t')) = true := by
      simpa using hspace
    simpa [hsome] using hspace
  · have hnone : (decide (rest.head? = some ' ') || decide (rest.head? = some '\t')) = false := by
      simpa using hspace
    simp [hnone]

theorem keeps_replace {again : Focus} {before word behind : Text} {spaceAfter : Bool}
    (hstart : again.token.start = Text.byteLength before)
    (hstop : again.token.stop = Text.byteLength (before ++ word))
    (hescape : again.token.quote.escape word = word)
    (hspace : again.token.quote = .bare → spaceAfter = true →
      behind.head? = some ' ' ∨ behind.head? = some '\t') :
    (again.replace (before ++ word ++ behind) word spaceAfter).Keeps (before ++ word ++ behind)
      (Text.byteLength (before ++ word) +
        if spaceAfter && again.token.quote = .bare then 1 else 0) := by
  have hwritten : again.written (before ++ word ++ behind) word = before ++ word := by
    rw [written, hstart, hescape, List.append_assoc, Text.splitBytes_byteLength_append]
  have hbehind : again.behind (before ++ word ++ behind) spaceAfter = behind := by
    rw [Focus.behind, hstop, Text.splitBytes_byteLength_append]
    cases spaceAfter with
    | false => simp
    | true =>
        by_cases hbare : again.token.quote = .bare
        · have hhead := hspace hbare rfl
          simpa [hbare, Decidable.imp_iff_not_or] using hhead
        · simp [hbare]
  rw [replace_eq, landing, hwritten, hbehind]
  exact Completion.keeps_ite ..

theorem exists_shared_prefix {focus : Focus} {line completed : Text} {target : CompletionTarget}
    {cursor : Nat} (h : focus.reduce line target = .replaced completed cursor)
    (hnames : ∀ name ∈ target.candidates, name ≠ []) :
    target.shared focus.typed ≠ [] ∧
      ∃ name ∈ target.candidates, target.shared focus.typed <+: name := by
  obtain ⟨hfound, hmore, -, -⟩ := reduce_replaced h
  constructor
  · rcases hmore with hexact | hlonger
    · exact hnames _ (Text.mem_candidatesFor.1 (Text.commonStart_mem_of_isExact hexact)).1
    · intro hnil
      rw [hnil] at hlonger
      exact absurd hlonger (Nat.not_lt_zero _)
  · obtain ⟨name, hname⟩ := List.exists_mem_of_ne_nil _ hfound
    exact ⟨name, (Text.mem_candidatesFor.1 hname).1, Text.commonStart_prefix hname⟩

theorem reduce_of_candidatesFor_eq_nil {focus : Focus} {target : CompletionTarget}
    (h : Text.candidatesFor focus.typed target.candidates = []) (line : Text) :
    focus.reduce line target = .unchanged := by
  simp [reduce, h]

theorem keeps_reduce_shared {again : Focus} {before word behind typed : Text}
    {target : CompletionTarget} (hword : word = target.shared typed)
    (hstart : again.token.start = Text.byteLength before)
    (hstop : again.token.stop = Text.byteLength (before ++ word))
    (hname : Text.IsName word) (htyped : again.typed = word)
    (hfound : Text.candidatesFor typed target.candidates ≠ [])
    (hspace : again.token.quote = .bare → target.endsWord typed = true →
      behind.head? = some ' ' ∨ behind.head? = some '\t') :
    (again.reduce (before ++ word ++ behind) target).Keeps (before ++ word ++ behind)
      (Text.byteLength (before ++ word) +
        if target.endsWord typed && again.token.quote = .bare then 1 else 0) := by
  rw [reduce_shared _ (htyped.trans hword) hfound]
  split
  · rename_i hexact
    rw [← hword]
    have hends : target.endsWord typed = target.exactSpace := by
      simp [CompletionTarget.endsWord, hexact]
    rw [hends] at hspace ⊢
    exact keeps_replace hstart hstop (Line.Quote.escape_name hname.all _) hspace
  · exact Completion.keeps_candidates ..

end Focus

theorem Catalog.HasPlainNames.shared {catalog : Catalog} (h : catalog.HasPlainNames) {host : Host}
    {session : Session} {focus : Focus} {target : CompletionTarget} {line completed : Text}
    {cursor : Nat} (hkind : focus.token.kind = .command ∨ focus.token.kind = .option)
    (htarget : focus.target? catalog host session = some target)
    (hreduce : focus.reduce line target = .replaced completed cursor) :
    Text.IsName (target.shared focus.typed) ∧
      (focus.token.kind = .option → (target.shared focus.typed).head? = some '-') := by
  obtain ⟨-, hcandidates⟩ := h.target hkind htarget
  obtain ⟨hne, name, hname, rest, rfl⟩ :=
    Focus.exists_shared_prefix hreduce fun name hname => (hcandidates name hname).1.ne_nil
  obtain ⟨hplain, hdash⟩ := hcandidates _ hname
  refine ⟨hplain.of_prefix (List.prefix_append ..) hne, fun hoption => ?_⟩
  obtain ⟨c, others, hshared⟩ := List.exists_cons_of_ne_nil hne
  rw [hshared] at hdash ⊢
  exact hdash hoption

namespace Focus.StandsIn

variable {arity : Line.Arity} {line passed tail word behind : Text} {focus : Focus}
  {reached : Line.State} {target : CompletionTarget}

theorem find?_name (h : focus.StandsIn arity line passed tail reached) (hword : Text.IsName word)
    (hbrace : focus.token.quote = .brace → behind.head?.all (· = '}') = true)
    (hdouble : focus.token.quote = .double → behind.head?.all (· = '"') = true) {position : Nat}
    (hstart : focus.token.start ≤ position)
    (hstop : position ≤ focus.token.start + Text.byteLength word) :
    ∃ more later, find? arity (passed ++ focus.token.quote.opening ++ word ++ behind) position =
        some ⟨focus.before,
          reached.wordToken arity (0 + Text.byteLength passed) focus.token.quote (word ++ more),
          later, focus.token.quote.read (word ++ more)⟩ ∧
      (focus.token.quote ≠ .bare → more = []) ∧
      (focus.token.quote = .bare →
        more = (Line.bareBody (reached.context true).nested behind).text) := by
  obtain ⟨more, closed, after, hread, hmore⟩ :=
    Line.reads_name hword (reached.context true) hbrace hdouble
  obtain ⟨later, hfind⟩ := h.find?_word hread hstart (by
    rw [Text.byteLength_append]
    omega)
  rw [List.append_assoc _ word behind]
  exact ⟨more, later, hfind, hmore⟩

theorem target?_again (h : focus.StandsIn arity line passed tail reached) {catalog : Catalog}
    {host : Host} {session : Session}
    (hkind : focus.token.kind = .command ∨ focus.token.kind = .option)
    (hword : focus.token.kind = .option → word.head? = some '-') (offset : Nat)
    (later : List Token) (typed : Text) :
    target? ⟨focus.before, reached.wordToken arity offset focus.token.quote word, later, typed⟩
      catalog host session = focus.target? catalog host session := by
  obtain ⟨text, htext⟩ := h.kind_eq
  rw [htext] at hkind hword
  exact target?_congr catalog host session rfl h.invocation_eq.symm
    ((Line.Invocation.takeWord_eq_of_name hkind hword).trans htext.symm) (by rwa [htext])

theorem written_name (h : focus.StandsIn arity line passed tail reached)
    (hword : Text.IsName word) :
    focus.written line word = passed ++ focus.token.quote.opening ++ word := by
  rw [written, h.splitBytes_start, Line.Quote.escape_name hword.all]

theorem candidatesFor_carriedOn (h : focus.StandsIn arity line passed tail reached)
    (hquote : focus.token.quote = .bare) (hword : Text.IsName word)
    (hnames : ∀ name ∈ target.candidates, Text.IsName name) {spaceAfter : Bool}
    (hmore : (Line.bareBody (reached.context true).nested
      (focus.behind line spaceAfter)).text ≠ []) :
    Text.candidatesFor (Text.unescape (word ++
      (Line.bareBody (reached.context true).nested (focus.behind line spaceAfter)).text))
        target.candidates = [] := by
  have hnoSpace : spaceAfter = false := by
    cases spaceAfter with
    | false => rfl
    | true =>
        refine absurd ?_ hmore
        rw [Line.text_bareBody_eq_nil_iff]
        rcases head?_behind line hquote with hhead | hhead <;>
          simp [hhead, Line.endsBare, Line.isBlank]
  subst hnoSpace
  rw [h.behind_false] at hmore ⊢
  obtain ⟨c, hc, hforeign⟩ := Line.exists_unescape_more hword.all (h.tail_bare hquote) hmore
  rw [List.eq_nil_iff_forall_not_mem]
  intro name hname
  obtain ⟨hlisted, hbegins⟩ := Text.mem_candidatesFor.1 hname
  exact absurd ((hnames name hlisted).all c (hbegins.subset hc)) (by simp [hforeign])

end Focus.StandsIn

namespace Catalog

theorem keeps_completed_name {catalog : Catalog} (hnames : catalog.HasPlainNames) {host : Host}
    {session : Session} {line passed tail completed : Text} {focus : Focus} {reached : Line.State}
    {target : CompletionTarget} {cursor position : Nat}
    (hplace : focus.StandsIn catalog.arity line passed tail reached)
    (hkind : focus.token.kind = .command ∨ focus.token.kind = .option)
    (htarget : focus.target? catalog host session = some target)
    (hreduce : focus.reduce line target = .replaced completed cursor)
    (hstart : focus.token.start ≤ position)
    (hstop : position ≤ focus.token.start + Text.byteLength (target.shared focus.typed)) :
    (catalog.complete host session completed position).Keeps completed cursor := by
  obtain ⟨hword, hdash⟩ := hnames.shared hkind htarget hreduce
  obtain ⟨hfound, -, hcompleted, hcursor⟩ := Focus.reduce_replaced hreduce
  rw [Focus.landing, hplace.written_name hword] at hcursor
  rw [hplace.written_name hword] at hcompleted
  obtain ⟨more, later, hfind, hquoted, hbare⟩ := hplace.find?_name hword
    (hplace.behind_brace (target.endsWord focus.typed))
    (hplace.behind_double (target.endsWord focus.typed)) hstart hstop
  have hdashed : focus.token.kind = .option →
      (target.shared focus.typed ++ more).head? = some '-' := by
    intro hoption
    simp [hdash hoption]
  rw [complete, hcompleted, hfind]
  simp only [hplace.target?_again hkind hdashed, htarget]
  by_cases hmore : more = []
  · subst hmore
    rw [hcursor, List.append_nil]
    refine Focus.keeps_reduce_shared rfl ?_ ?_ hword ?_ hfound ?_
    · simp [Line.State.wordToken]
    · simp [Line.State.wordToken, Nat.add_assoc]
    · have hread := Line.Quote.read_escape focus.token.quote (target.shared focus.typed)
      rwa [Line.Quote.escape_name hword.all] at hread
    · intro hquote hends
      rw [hends]
      exact Focus.head?_behind line hquote
  · have hquote : focus.token.quote = .bare := Decidable.not_not.1 fun h => hmore (hquoted h)
    obtain rfl := hbare hquote
    have hnothing := hplace.candidatesFor_carriedOn hquote hword
      (fun name hname => ((hnames.target hkind htarget).2 name hname).1) hmore
    rw [Focus.reduce_of_candidatesFor_eq_nil]
    · exact Completion.keeps_unchanged ..
    · simpa only [hquote, Line.Quote.read] using hnothing

/-- The completion of a command or an option is completed to itself, with the
cursor anywhere in it. -/
theorem complete_names_stable {catalog : Catalog} (hnames : catalog.HasPlainNames) {host : Host}
    {session : Session} {line completed : Text} {cursor after : Nat} {focus : Focus}
    (hfocus : Focus.find? catalog.arity line cursor = some focus)
    (hkind : focus.token.kind = .command ∨ focus.token.kind = .option)
    (h : catalog.complete host session line cursor = .replaced completed after) :
    ∃ target before behind, focus.target? catalog host session = some target ∧
      completed = before ++ target.shared focus.typed ++ behind ∧
      Text.byteLength before = focus.token.start ∧
      ∀ position, Text.byteLength before ≤ position →
        position ≤ Text.byteLength (before ++ target.shared focus.typed) →
        (catalog.complete host session completed position).apply completed = completed ∧
          ∀ again landing, catalog.complete host session completed position =
            .replaced again landing → again = completed ∧ landing = after := by
  obtain ⟨_, target, hfind, htarget, hreduce⟩ := complete_eq_replaced h
  obtain rfl := Option.some.inj (hfocus.symm.trans hfind)
  obtain ⟨⟨passed, tail, reached, hplace⟩, -⟩ := Focus.standsIn_of_find hfocus
  have hcompleted := Focus.reduce_eq_replaced hreduce
  rw [hplace.written_name (hnames.shared hkind htarget hreduce).1] at hcompleted
  refine ⟨target, _, _, htarget, hcompleted, hplace.start_eq.symm, ?_⟩
  intro position hstart hstop
  rw [Text.byteLength_append, ← hplace.start_eq] at hstop
  rw [← hplace.start_eq] at hstart
  exact keeps_completed_name hnames hplace hkind htarget hreduce hstart hstop

def called (names : List Text) : Catalog :=
  NameMap.ofList (names.map fun name => (name, ⟨.empty name, fun _ _ _ _ => none⟩))

theorem complete_names_stable_carriedOn :
    (called ["ab", "abc"]).complete .bare .bare "\"x\"" 0 = .replaced "ab\"x\"" 2 ∧
      ((called ["ab", "abc"]).complete .bare .bare "ab\"x\"" 2).apply "ab\"x\"" =
        "ab\"x\"" := by
  have hnames : (called ["ab", "abc"]).HasPlainNames := by
    have hcommands : (called ["ab", "abc"]).keys.all
        (fun name => !name.isEmpty && name.all Text.isNameChar) = true := by decide +kernel
    have hoptions : (called ["ab", "abc"]).values.all (·.schema.arguments.isEmpty) = true := by
      decide +kernel
    constructor
    · intro name hname
      have hplain := List.all_eq_true.1 hcommands name hname
      rw [Bool.and_eq_true, List.all_eq_true] at hplain
      exact ⟨by simpa using hplain.1, hplain.2⟩
    · intro entry hentry argument hargument
      have hnone := List.all_eq_true.1 hoptions entry hentry
      rw [List.isEmpty_iff.1 hnone] at hargument
      contradiction
  have hfocus : Focus.find? (called ["ab", "abc"]).arity "\"x\"" 0 =
      some ⟨[], ⟨.command, [], 0, 0, .bare, 0⟩, [], []⟩ := by decide +kernel
  have hcomplete : (called ["ab", "abc"]).complete .bare .bare "\"x\"" 0 =
      .replaced "ab\"x\"" 2 := by decide +kernel
  refine ⟨hcomplete, ?_⟩
  obtain ⟨target, before, behind, htarget, -, hbefore, hagain⟩ :=
    complete_names_stable hnames hfocus (.inl rfl) hcomplete
  obtain rfl := Text.byteLength_eq_zero hbefore
  obtain rfl : (⟨["ab", "abc"], true⟩ : CompletionTarget) = target :=
    Option.some.inj (Eq.trans (by decide +kernel) htarget)
  exact (hagain 2 (by decide) (by decide +kernel)).1

end Catalog

end CommandFrame
