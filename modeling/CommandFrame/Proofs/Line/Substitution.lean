import CommandFrame.Proofs.Line.Kinds
import CommandFrame.Proofs.Line.Moved
import CommandFrame.Proofs.Line.Passage

/-!
# Substitutions are opaque

What stands between the brackets of a substitution makes no difference to the
words around it.  The scan comes out of the brackets in the state in which it
went in, with a slot filled and more numbers given out.
-/

namespace CommandFrame.Line

/-! ## Steps that lead to a place -/

/-- Any line that goes on with `c` after `passed` is scanned by the steps `past` up to
there, and then on from the state `reached`. -/
structure Leads (arity : Arity) (brackets : Bool) (state : State) (offset : Nat)
    (past : List Step) (passed : Text) (reached : State) (c : Char) : Prop where
  steps_eq (rest : Text) : stepsFrom arity brackets state offset (passed ++ c :: rest) =
    past ++ stepsFrom arity brackets reached (offset + Text.byteLength passed) (c :: rest)
  complete_eq (rest : Text) :
    (scanFrom arity brackets state offset (passed ++ c :: rest)).complete =
      (scanFrom arity brackets reached (offset + Text.byteLength passed) (c :: rest)).complete

section

variable {arity : Arity} {brackets : Bool} {state reached : State} {offset : Nat}
  {past future : List Step} {step : Step} {text passed rest : Text} {lexeme : Lexeme} {c : Char}

theorem Leads.nil : Leads arity brackets state offset [] [] state c :=
  ⟨fun _ => rfl, fun _ => rfl⟩

theorem Leads.cons_of_reads
    (h : Leads arity brackets (Step.next arity ⟨state, offset, lexeme⟩)
      (Step.stop ⟨state, offset, lexeme⟩) past passed reached c)
    (hread : Reads (state.context brackets) text lexeme (passed ++ c :: rest)) :
    Leads arity brackets state offset (⟨state, offset, lexeme⟩ :: past)
      (lexeme.source ++ passed) reached c := by
  obtain ⟨-, hvalid, hends⟩ := reads_iff.1 hread
  have hstops (other : Text) :
      lexeme.EndsBefore (state.context brackets).nested (passed ++ c :: other) := by
    cases passed with
    | nil => exact hends.of_head other
    | cons d passed => exact hends.of_head _
  have hagain (other : Text) : Reads (state.context brackets)
      (lexeme.source ++ passed ++ c :: other) lexeme (passed ++ c :: other) := by
    rw [List.append_assoc]
    exact reads_of_valid hvalid (hstops other)
  have hplace : offset + Text.byteLength (lexeme.source ++ passed) =
      Step.stop ⟨state, offset, lexeme⟩ + Text.byteLength passed := by
    rw [Step.stop_mk, Text.byteLength_append]
    omega
  have hclosed := Lexeme.isClosed_of_endsBefore hends (by simp)
  constructor
  · intro other
    rw [stepsFrom_of_reads (hagain other), h.steps_eq other, hplace]
    rfl
  · intro other
    rw [scanFrom_of_reads (hagain other), hclosed, Bool.true_and, h.complete_eq other, hplace]

theorem Leads.tokens_eq (h : Leads arity brackets state offset past passed reached c)
    (rest : Text) :
    (scanFrom arity brackets state offset (passed ++ c :: rest)).tokens =
      past.filterMap (Step.token? arity) ++
        (scanFrom arity brackets reached (offset + Text.byteLength passed) (c :: rest)).tokens := by
  rw [tokens_scanFrom, h.steps_eq, List.filterMap_append, ← tokens_scanFrom]

theorem exists_reads_of_stepsFrom (h : stepsFrom arity brackets state offset text = step :: future) :
    step.state = state ∧ step.offset = offset ∧
      ∃ rest, Reads (state.context brackets) text step.lexeme rest ∧
        future = stepsFrom arity brackets (step.next arity) step.stop rest := by
  cases text with
  | nil => simp at h
  | cons c after =>
      obtain ⟨lexeme, rest, hread⟩ := exists_reads (state.context brackets) c after
      rw [stepsFrom_of_reads hread] at h
      obtain ⟨rfl, rfl⟩ := List.cons.inj h
      exact ⟨rfl, rfl, rest, hread, rfl⟩

theorem exists_leads
    (h : stepsFrom arity brackets state offset text = past ++ step :: future) :
    ∃ passed c rest, text = passed ++ c :: rest ∧
      step.offset = offset + Text.byteLength passed ∧
      Leads arity brackets state offset past passed step.state c := by
  induction past generalizing state offset text with
  | nil =>
      obtain ⟨rfl, rfl, rest, ⟨c, after, rfl, -⟩, -⟩ := exists_reads_of_stepsFrom h
      exact ⟨[], c, after, rfl, rfl, .nil⟩
  | cons first past ih =>
      obtain ⟨firstState, firstOffset, lexeme⟩ := first
      obtain ⟨rfl, rfl, behind, hread, hlater⟩ := exists_reads_of_stepsFrom h
      obtain ⟨passed, c, rest, rfl, hoffset, hleads⟩ := ih hlater.symm
      refine ⟨lexeme.source ++ passed, c, rest, ?_, ?_, hleads.cons_of_reads hread⟩
      · rw [hread.source, List.append_assoc]
      · rw [hoffset, Step.stop_mk, Text.byteLength_append, Nat.add_assoc]

end

/-! ## Numbers along the steps -/

namespace State

theorem Numbered.of_stepsFrom (arity : Arity) (brackets : Bool) {state : State} (offset : Nat)
    (text : Text) (h : state.Numbered) :
    (stepsFrom arity brackets state offset text).Pairwise
        (fun first second => first.state.numbered ≤ second.state.numbered) ∧
      ∀ step ∈ stepsFrom arity brackets state offset text,
        step.state.Numbered ∧ state.numbered ≤ step.state.numbered := by
  induction state, offset, text using scan_induction arity brackets with
  | nil state offset => simp
  | step state offset text lexeme rest hread ih =>
      obtain ⟨hpairwise, hlater⟩ := ih h.next
      have hstart := numbered_le_next arity state offset lexeme
      have hle : ∀ step ∈ stepsFrom arity brackets (Step.next arity ⟨state, offset, lexeme⟩)
          (Step.stop ⟨state, offset, lexeme⟩) rest,
          step.state.Numbered ∧ state.numbered ≤ step.state.numbered :=
        fun step hstep => ⟨(hlater step hstep).1, Nat.le_trans hstart (hlater step hstep).2⟩
      rw [stepsFrom_of_reads hread, List.pairwise_cons, List.forall_mem_cons]
      exact ⟨⟨fun step hstep => (hle step hstep).2, hpairwise⟩, ⟨h, Nat.le_refl _⟩, hle⟩

theorem invocation_of_mem_tokens {arity : Arity} {brackets : Bool} {state : State} {offset : Nat}
    {text : Text} {token : Token}
    (h : token ∈ (scanFrom arity brackets state offset text).tokens) :
    token.invocation ∈ state.numbers ∨ state.numbered ≤ token.invocation := by
  induction state, offset, text using scan_induction arity brackets with
  | nil state offset => simp at h
  | step state offset text lexeme rest hread ih =>
      rcases (mem_tokens_of_reads hread).1 h with hhere | hlater
      · obtain ⟨quote, word, closed, -, rfl⟩ := Step.token?_eq_some hhere
        exact .inl List.mem_cons_self
      · obtain ⟨kept, hkept, ⟨hnumbers, hnumbered⟩ | ⟨hnumbers, hnumbered⟩⟩ :=
          numbers_next arity state offset lexeme
        · rw [hnumbers, hnumbered] at ih
          exact (ih hlater).imp_left fun hmem => hkept.subset hmem
        · rw [hnumbers, hnumbered, List.mem_cons] at ih
          rcases ih hlater with (hnew | hmem) | hle
          · exact .inr (Nat.le_of_eq hnew.symm)
          · exact .inl (hkept.subset hmem)
          · exact .inr (Nat.le_of_succ_le hle)

structure Inside (first : Nat) (around : List Invocation) (state : State) : Prop where
  outer_eq : ∃ own, state.outer = own ++ around ∧
    ∀ invocation ∈ state.current :: own, first ≤ invocation.number
  first_lt : first < state.numbered

variable {arity : Arity} {brackets : Bool} {state : State} {offset first : Nat} {text : Text}
  {lexeme : Lexeme} {around : List Invocation}

theorem Inside.next (h : state.Inside first around)
    (hdepth : around.length ≤ (Step.next arity ⟨state, offset, lexeme⟩).outer.length) :
    (Step.next arity ⟨state, offset, lexeme⟩).Inside first around := by
  obtain ⟨⟨own, houter, hnumbers⟩, hfirst⟩ := h
  obtain ⟨hcurrent, hown⟩ := List.forall_mem_cons.1 hnumbers
  refine ⟨?_, Nat.lt_of_lt_of_le hfirst (numbered_le_next arity state offset lexeme)⟩
  -- Only a closing bracket takes an invocation off the stack, and by `hdepth` it is none of those
  -- around.
  cases lexeme with
  | separator c =>
      cases hcommand : state.current.command with
      | none => simpa [Step.next, advance, hcommand] using ⟨own, houter, hcurrent, hown⟩
      | some name =>
          simpa [Step.next, advance, hcommand] using ⟨own, houter, Nat.le_of_lt hfirst, hown⟩
  | opening =>
      exact ⟨state.current :: own, congrArg (state.current :: ·) houter,
        List.forall_mem_cons.2 ⟨Nat.le_of_lt hfirst, hnumbers⟩⟩
  | closing =>
      cases own with
      | nil =>
          cases around with
          | nil => simpa [Step.next, advance, houter] using hcurrent
          | cons parent around =>
              simp only [Step.next, advance, houter, List.nil_append, List.length_cons] at hdepth
              omega
      | cons parent own =>
          obtain ⟨hparent, hown⟩ := List.forall_mem_cons.1 hown
          refine ⟨own, ?_, List.forall_mem_cons.2 ⟨?_, hown⟩⟩
          · simp [Step.next, advance, houter]
          · simpa [Step.next, advance, houter, Invocation.takeSubstitution] using hparent
  | word quote word closed =>
      refine ⟨own, houter, List.forall_mem_cons.2 ⟨?_, hown⟩⟩
      simpa [Step.next, advance, Invocation.number_takeWord] using hcurrent
  | _ => exact ⟨own, houter, hnumbers⟩

theorem Inside.of_stepsFrom (h : state.Inside first around) {between future : List Step}
    {last : Step}
    (hsteps : stepsFrom arity brackets state offset text = between ++ last :: future)
    (hdepth : ∀ step ∈ between, around.length ≤ step.state.outer.length)
    (hlast : around.length ≤ last.state.outer.length) :
    (∀ step ∈ between, step.state.Inside first around) ∧ last.state.Inside first around := by
  induction between generalizing state offset text with
  | nil =>
      obtain ⟨hstate, -⟩ := exists_reads_of_stepsFrom hsteps
      exact ⟨by simp, hstate ▸ h⟩
  | cons step between ih =>
      obtain ⟨rfl, rfl, rest, -, hrest⟩ := exists_reads_of_stepsFrom hsteps
      obtain ⟨-, hlater⟩ := List.forall_mem_cons.1 hdepth
      have hdeep : around.length ≤ (step.next arity).outer.length := by
        cases between with
        | nil =>
            obtain ⟨hstate, -⟩ := exists_reads_of_stepsFrom hrest.symm
            exact hstate ▸ hlast
        | cons second between =>
            obtain ⟨hstate, -⟩ := exists_reads_of_stepsFrom hrest.symm
            exact hstate ▸ hlater second List.mem_cons_self
      obtain ⟨hbetween, hend⟩ := ih (h.next hdeep) hrest.symm hlater
      exact ⟨List.forall_mem_cons.2 ⟨h, hbetween⟩, hend⟩

def resume (state : State) (numbered : Nat) : State :=
  ⟨state.current.takeSubstitution, state.outer, numbered⟩

theorem Inside.next_closing (h : state.Inside first around)
    (hdepth : state.outer.length = around.length) {parent : Invocation}
    {outer : List Invocation} (haround : around = parent :: outer) :
    Step.next arity ⟨state, offset, .closing⟩ =
      ⟨parent.takeSubstitution, outer, state.numbered⟩ := by
  obtain ⟨⟨own, houter, -⟩, -⟩ := h
  have hown : own = [] := by
    rw [houter, List.length_append] at hdepth
    exact List.length_eq_zero_iff.1 (by omega)
  rw [hown, haround, List.nil_append] at houter
  simp [Step.next, advance, houter]

end State

/-! ## A substitution -/

/-- In the line the brackets around `inside` begin and end one substitution: at no step
between them is the first one closed. -/
def IsSubstitution (arity : Arity) (before inside after : Text) : Prop :=
  ∃ past opened between closed future,
    steps arity true (before ++ '[' :: (inside ++ ']' :: after)) =
      past ++ ⟨opened, Text.byteLength before, .opening⟩ :: (between ++
        ⟨closed, Text.byteLength before + 1 + Text.byteLength inside, .closing⟩ :: future) ∧
    (∀ step ∈ between, opened.outer.length < step.state.outer.length) ∧
    closed.outer.length = opened.outer.length + 1

theorem stepsFrom_opening (arity : Arity) (state : State) (offset : Nat) (rest : Text) :
    stepsFrom arity true state offset ('[' :: rest) =
      ⟨state, offset, .opening⟩ ::
        stepsFrom arity true (Step.next arity ⟨state, offset, .opening⟩) (offset + 1) rest :=
  stepsFrom_of_reads (reads_opening rfl rest)

theorem Leads.unique {arity : Arity} {state first second : State} {offset : Nat}
    {past past' : List Step} {passed : Text}
    (h : Leads arity true state offset past passed first '[')
    (h' : Leads arity true state offset past' passed second '[') :
    past = past' ∧ first = second := by
  have hsteps := (h.steps_eq []).symm.trans (h'.steps_eq [])
  rw [stepsFrom_opening, stepsFrom_opening, stepsFrom_nil, stepsFrom_nil] at hsteps
  obtain ⟨hpast, hlast⟩ := List.append_inj' hsteps rfl
  exact ⟨hpast, congrArg Step.state (List.cons.inj hlast).1⟩

/-- A substitution that opens in a state has the words `inner`, and then the scan goes on
behind it. -/
structure Encloses (arity : Arity) (opened : State) (offset : Nat) (inside : Text)
    (inner : List Token) (numbered : Nat) : Prop where
  tokens_eq (after : Text) :
    (scanFrom arity true opened offset ('[' :: (inside ++ ']' :: after))).tokens =
      inner ++ (scanFrom arity true (opened.resume numbered)
        (offset + 1 + Text.byteLength inside + 1) after).tokens
  complete_eq (after : Text) :
    (scanFrom arity true opened offset ('[' :: (inside ++ ']' :: after))).complete =
      (scanFrom arity true (opened.resume numbered)
        (offset + 1 + Text.byteLength inside + 1) after).complete
  place : ∀ token ∈ inner,
    offset + 1 ≤ token.start ∧ token.stop ≤ offset + 1 + Text.byteLength inside
  number : ∀ token ∈ inner, opened.numbered ≤ token.invocation ∧ token.invocation < numbered
  opened_lt : opened.numbered < numbered

theorem Step.token?_closing (arity : Arity) (state : State) (offset : Nat) :
    token? arity ⟨state, offset, .closing⟩ = none := by
  cases houter : state.outer <;> simp [token?, State.advance, houter]

theorem Step.invocation_of_token? {arity : Arity} {step : Step} {token : Token}
    (h : step.token? arity = some token) : token.invocation = step.state.current.number := by
  obtain ⟨state, offset, lexeme⟩ := step
  obtain ⟨quote, text, closed, -, rfl⟩ := Step.token?_eq_some h
  rfl

theorem encloses_of_stepsFrom {arity : Arity} {opened closed : State} {offset : Nat}
    {inside after : Text} {between future : List Step} (hopened : opened.Numbered)
    (hsteps : stepsFrom arity true (Step.next arity ⟨opened, offset, .opening⟩) (offset + 1)
        (inside ++ ']' :: after) =
      between ++ ⟨closed, offset + 1 + Text.byteLength inside, .closing⟩ :: future)
    (hdeep : ∀ step ∈ between, opened.outer.length < step.state.outer.length)
    (hdepth : closed.outer.length = opened.outer.length + 1) :
    Encloses arity opened offset inside (between.filterMap (Step.token? arity))
      closed.numbered := by
  obtain ⟨passed, c, rest, htext, hplace, hleads⟩ := exists_leads hsteps
  obtain ⟨rfl, hrest⟩ := Text.append_inj_of_byteLength htext (by simp only at hplace; omega)
  obtain ⟨rfl, rfl⟩ := List.cons.inj hrest
  have hstart : (Step.next arity ⟨opened, offset, .opening⟩).Inside opened.numbered
      (opened.current :: opened.outer) :=
    ⟨⟨[], rfl, by simp [Step.next, State.advance]⟩, Nat.lt_succ_self _⟩
  obtain ⟨hinside, hclosed⟩ := hstart.of_stepsFrom hsteps hdeep (Nat.le_of_eq hdepth.symm)
  have hresume : Step.next arity ⟨closed, offset + 1 + Text.byteLength inside, .closing⟩ =
      opened.resume closed.numbered := hclosed.next_closing hdepth rfl
  have hopening : ∀ rest, Reads (opened.context true) ('[' :: rest) .opening rest :=
    reads_opening rfl
  have hnested : (closed.context true).nested = true := by
    simpa [State.context] using List.ne_nil_of_length_eq_add_one hdepth
  obtain ⟨hpairwise, hle⟩ := pairwise_stepsFrom arity true
    (Step.next arity ⟨opened, offset, .opening⟩) (offset + 1) (inside ++ ']' :: after)
  have hfrom : (Step.next arity ⟨opened, offset, .opening⟩).Numbered := hopened.next
  obtain ⟨hnumbered, hlater⟩ :=
    hfrom.of_stepsFrom arity true (offset + 1) (inside ++ ']' :: after)
  rw [hsteps, List.pairwise_append] at hpairwise hnumbered
  rw [hsteps, List.forall_mem_append] at hle hlater
  constructor
  · intro rest
    have hbody := hleads.tokens_eq rest
    rw [scanFrom_of_reads (reads_closing hnested rest), hresume, Step.token?_closing] at hbody
    rw [scanFrom_of_reads (hopening _)]
    exact hbody
  · intro rest
    have hbody := hleads.complete_eq rest
    rw [scanFrom_of_reads (reads_closing hnested rest), hresume] at hbody
    rw [scanFrom_of_reads (hopening _)]
    exact hbody
  · intro token htoken
    obtain ⟨step, hstep, hword⟩ := List.mem_filterMap.1 htoken
    obtain ⟨hbegin, hspan, hend⟩ := Step.bounds_of_token? hword
    have hbehind := hle.1 step hstep
    have hbefore := hpairwise.2.2 step hstep _ List.mem_cons_self
    simp only at hbefore
    omega
  · intro token htoken
    obtain ⟨step, hstep, hword⟩ := List.mem_filterMap.1 htoken
    obtain ⟨⟨own, -, hown⟩, -⟩ := hinside step hstep
    have hlt := (hlater.1 step hstep).1.lt step.state.current.number List.mem_cons_self
    rw [Step.invocation_of_token? hword]
    exact ⟨hown _ List.mem_cons_self,
      Nat.lt_of_lt_of_le hlt (hnumbered.2.2 step hstep _ List.mem_cons_self)⟩
  · exact hclosed.first_lt

theorem IsSubstitution.exists_encloses {arity : Arity} {before inside after : Text}
    (h : IsSubstitution arity before inside after) :
    ∃ past opened inner numbered,
      Leads arity true State.start 0 past before opened '[' ∧ opened.Numbered ∧
        Encloses arity opened (Text.byteLength before) inside inner numbered := by
  obtain ⟨past, opened, between, closed, future, hsteps, hdeep, hdepth⟩ := h
  obtain ⟨passed, c, rest, hline, hoffset, hleads⟩ := exists_leads hsteps
  obtain ⟨rfl, hrest⟩ := Text.append_inj_of_byteLength hline (by simpa using hoffset)
  obtain ⟨rfl, rfl⟩ := List.cons.inj hrest
  obtain ⟨-, hnumbered⟩ :=
    State.Numbered.start.of_stepsFrom arity true 0 (before ++ '[' :: (inside ++ ']' :: after))
  rw [← steps, hsteps] at hnumbered
  have hopened : opened.Numbered :=
    (hnumbered _ (List.mem_append_right _ List.mem_cons_self)).1
  have hbody := hleads.steps_eq (inside ++ ']' :: after)
  rw [← steps, hsteps, List.append_cancel_left_eq, stepsFrom_opening, Nat.zero_add] at hbody
  exact ⟨past, opened, _, _, hleads, hopened,
    encloses_of_stepsFrom hopened (List.cons.inj hbody).2.symm hdeep hdepth⟩

/-! ## The words around a substitution -/

theorem Leads.words {arity : Arity} {past : List Step} {passed : Text} {reached : State} {c : Char}
    (h : Leads arity true State.start 0 past passed reached c) :
    ∀ token ∈ past.filterMap (Step.token? arity),
      token.stop ≤ Text.byteLength passed ∧ token.invocation < reached.numbered := by
  obtain ⟨lexeme, rest, hread⟩ := exists_reads (reached.context true) c []
  have hsteps := h.steps_eq []
  rw [stepsFrom_of_reads hread, Nat.zero_add] at hsteps
  obtain ⟨hpairwise, -⟩ := pairwise_stepsFrom arity true State.start 0 (passed ++ [c])
  obtain ⟨hnumbered, hgiven⟩ :=
    State.Numbered.start.of_stepsFrom arity true 0 (passed ++ [c])
  rw [hsteps, List.pairwise_append] at hpairwise hnumbered
  rw [hsteps, List.forall_mem_append] at hgiven
  intro token htoken
  obtain ⟨step, hstep, hword⟩ := List.mem_filterMap.1 htoken
  obtain ⟨-, -, hend⟩ := Step.bounds_of_token? hword
  have hlt := (hgiven.1 step hstep).1.lt step.state.current.number List.mem_cons_self
  rw [Step.invocation_of_token? hword]
  exact ⟨Nat.le_trans hend (hpairwise.2.2 step hstep _ List.mem_cons_self),
    Nat.lt_of_lt_of_le hlt (hnumbered.2.2 step hstep _ List.mem_cons_self)⟩

/-- The words of a line before a substitution, in it and behind it. -/
structure Around (arity : Arity) (before inside after : Text) (words inner behind : List Token) :
    Prop where
  tokens_eq : tokens arity (before ++ '[' :: (inside ++ ']' :: after)) = words ++ inner ++ behind
  words_place : ∀ token ∈ words, token.stop ≤ Text.byteLength before
  inner_place : ∀ token ∈ inner, Text.byteLength before + 1 ≤ token.start ∧
    token.stop ≤ Text.byteLength before + 1 + Text.byteLength inside
  behind_place : ∀ token ∈ behind,
    Text.byteLength before + 1 + Text.byteLength inside + 1 ≤ token.start
  apart : ∀ token ∈ inner, ∀ outer ∈ words ++ behind, token.invocation ≠ outer.invocation

def renumberFrom (first numbered numbered' n : Nat) : Nat :=
  if n < first then n else n - numbered + numbered'

theorem renumberFrom_of_lt {first n : Nat} (h : n < first) (numbered numbered' : Nat) :
    renumberFrom first numbered numbered' n = n := if_pos h

theorem renumberFrom_of_le {first numbered n : Nat} (hfirst : first ≤ numbered)
    (h : numbered ≤ n) (numbered' : Nat) :
    renumberFrom first numbered numbered' n = n - numbered + numbered' :=
  if_neg (by omega)

theorem renumberFrom_lt {first numbered numbered' m n : Nat} (hfirst : first ≤ numbered)
    (hfirst' : first ≤ numbered') (hm : m < first ∨ numbered ≤ m)
    (hn : n < first ∨ numbered ≤ n) (hlt : m < n) :
    renumberFrom first numbered numbered' m < renumberFrom first numbered numbered' n := by
  rcases hm with hm | hm <;> rcases hn with hn | hn
  · rwa [renumberFrom_of_lt hm, renumberFrom_of_lt hn]
  · rw [renumberFrom_of_lt hm, renumberFrom_of_le hfirst hn]
    omega
  · omega
  · rw [renumberFrom_of_le hfirst hm, renumberFrom_of_le hfirst hn]
    omega

theorem Invocation.rename_eq_self {number : Nat → Nat} {invocation : Invocation}
    (h : number invocation.number = invocation.number) : invocation.rename number = invocation := by
  rw [rename, h]

section

variable {arity : Arity} {before after first second : Text} {opened : State} {past : List Step}
  {inner inner' : List Token} {numbered numbered' : Nat}

theorem State.Numbered.rename_resume (h : opened.Numbered) (hle : opened.numbered ≤ numbered)
    (numbered' : Nat) :
    (opened.resume numbered).rename (renumberFrom opened.numbered numbered numbered') =
      opened.resume numbered' := by
  obtain ⟨hcurrent, houter⟩ := List.forall_mem_cons.1 h.lt
  have hkept : opened.outer.map (·.rename (renumberFrom opened.numbered numbered numbered')) =
      opened.outer := by
    refine (List.map_congr_left fun invocation hmem => ?_).trans (List.map_id _)
    exact Invocation.rename_eq_self
      (renumberFrom_of_lt (houter _ (List.mem_map_of_mem hmem)) numbered numbered')
  have hfilled : (opened.current.takeSubstitution).rename
      (renumberFrom opened.numbered numbered numbered') = opened.current.takeSubstitution :=
    Invocation.rename_eq_self (renumberFrom_of_lt hcurrent numbered numbered')
  have hnext := renumberFrom_of_le hle (Nat.le_refl numbered) numbered'
  rw [Nat.sub_self, Nat.zero_add] at hnext
  simp only [State.resume, State.rename, hkept, hfilled, hnext]

theorem State.Numbered.invocation_behind (h : opened.Numbered) {offset : Nat} {text : Text}
    {token : Token}
    (htoken : token ∈ (scanFrom arity true (opened.resume numbered) offset text).tokens) :
    token.invocation < opened.numbered ∨ numbered ≤ token.invocation :=
  (State.invocation_of_mem_tokens htoken).imp_left (h.lt _)

theorem Encloses.around (h : Encloses arity opened (Text.byteLength before) first inner numbered)
    (hleads : Leads arity true State.start 0 past before opened '[') (hopened : opened.Numbered)
    (after : Text) :
    Around arity before first after (past.filterMap (Step.token? arity)) inner
      (scanFrom arity true (opened.resume numbered)
        (Text.byteLength before + 1 + Text.byteLength first + 1) after).tokens := by
  constructor
  · rw [tokens, scan, hleads.tokens_eq, Nat.zero_add, h.tokens_eq, List.append_assoc]
  · exact fun token htoken => (hleads.words token htoken).1
  · exact h.place
  · exact fun token => start_le_of_mem_tokens
  · intro token htoken outer houter
    obtain ⟨hle, hlt⟩ := h.number token htoken
    rcases List.mem_append.1 houter with hword | hbehind
    · have hbefore := (hleads.words outer hword).2
      omega
    · have hlater := hopened.invocation_behind hbehind
      omega

theorem Encloses.scan_eq (h : Encloses arity opened (Text.byteLength before) first inner numbered)
    (hopened : opened.Numbered) (second : Text) (numbered' : Nat) (after : Text) :
    scanFrom arity true (opened.resume numbered')
        (Text.byteLength before + 1 + Text.byteLength second + 1) after =
      ⟨(scanFrom arity true (opened.resume numbered)
          (Text.byteLength before + 1 + Text.byteLength first + 1) after).tokens.map
          (Token.move (Text.byteLength first) (Text.byteLength second)
            (renumberFrom opened.numbered numbered numbered')),
        (scanFrom arity true (opened.resume numbered)
          (Text.byteLength before + 1 + Text.byteLength first + 1) after).complete⟩ := by
  have hle := Nat.le_of_lt h.opened_lt
  have hrow : ∀ n, numbered ≤ n → renumberFrom opened.numbered numbered numbered' (n + 1) =
      renumberFrom opened.numbered numbered numbered' n + 1 := by
    intro n hn
    rw [renumberFrom_of_le hle hn, renumberFrom_of_le hle (Nat.le_succ_of_le hn)]
    omega
  have hplace : Text.byteLength second +
      (Text.byteLength before + 1 + Text.byteLength first + 1 - Text.byteLength first) =
        Text.byteLength before + 1 + Text.byteLength second + 1 := by omega
  rw [← State.scanFrom_rename arity true _ (Text.byteLength second) after (by omega) hrow,
    hopened.rename_resume hle, hplace]

end

/-- Whatever stands between the brackets of a substitution, the words around it are the
same, and so is whether the line leaves something open.  Only those behind it are moved,
and later invocations have other numbers in the same order. -/
theorem substitution_opaque {arity : Arity} {before after first second : Text}
    (hfirst : IsSubstitution arity before first after)
    (hsecond : IsSubstitution arity before second after) :
    ∃ words inner inner' behind number,
      Around arity before first after words inner behind ∧
      Around arity before second after words inner'
        (behind.map (Token.move (Text.byteLength first) (Text.byteLength second) number)) ∧
      (∀ token ∈ words, number token.invocation = token.invocation) ∧
      (∀ token ∈ words ++ behind, ∀ other ∈ words ++ behind,
        token.invocation < other.invocation →
          number token.invocation < number other.invocation) ∧
      (scan arity true (before ++ '[' :: (second ++ ']' :: after))).complete =
        (scan arity true (before ++ '[' :: (first ++ ']' :: after))).complete := by
  obtain ⟨past, opened, inner, numbered, hleads, hopened, hinner⟩ := hfirst.exists_encloses
  obtain ⟨past', opened', inner', numbered', hleads', -, hinner'⟩ := hsecond.exists_encloses
  obtain ⟨rfl, rfl⟩ := hleads.unique hleads'
  have hbehind := hinner.scan_eq hopened second numbered' after
  have haround := hinner.around hleads hopened after
  have haround' := hinner'.around hleads hopened after
  rw [hbehind] at haround'
  have hnumber : ∀ token ∈ past.filterMap (Step.token? arity) ++ (scanFrom arity true
      (opened.resume numbered) (Text.byteLength before + 1 + Text.byteLength first + 1)
        after).tokens, token.invocation < opened.numbered ∨ numbered ≤ token.invocation := by
    intro token htoken
    rcases List.mem_append.1 htoken with hword | hlater
    · exact .inl (hleads.words token hword).2
    · exact hopened.invocation_behind hlater
  refine ⟨_, inner, inner', _, _, haround, haround', ?_, ?_, ?_⟩
  · exact fun token htoken => renumberFrom_of_lt (hleads.words token htoken).2 _ _
  · intro token htoken other hother
    exact renumberFrom_lt (Nat.le_of_lt hinner.opened_lt) (Nat.le_of_lt hinner'.opened_lt)
      (hnumber token htoken) (hnumber other hother)
  · rw [scan, scan, hleads.complete_eq, hleads.complete_eq, Nat.zero_add, hinner.complete_eq,
      hinner'.complete_eq, hbehind]

/-! A substitution in the place of the value of an option. -/

namespace ValueLine

def waiting : Invocation := ⟨0, some "t", true, false⟩

def past : List Step :=
  [⟨State.start, 0, .word .bare "t" true⟩,
    ⟨⟨⟨0, some "t", false, false⟩, [], 1⟩, 1, .blank ' '⟩,
    ⟨⟨⟨0, some "t", false, false⟩, [], 1⟩, 2, .word .bare "-x" true⟩,
    ⟨⟨waiting, [], 1⟩, 4, .blank ' '⟩]

def future (numbered offset : Nat) : List Step :=
  [⟨⟨⟨0, some "t", false, false⟩, [], numbered⟩, offset, .blank ' '⟩,
    ⟨⟨⟨0, some "t", false, false⟩, [], numbered⟩, offset + 1, .word .bare "y" true⟩,
    ⟨⟨⟨0, some "t", false, false⟩, [], numbered⟩, offset + 2, .separator ';'⟩,
    ⟨⟨{ number := numbered }, [], numbered + 1⟩, offset + 3, .word .bare "z" true⟩]

theorem isSubstitution_word : IsSubstitution unknownArity "t -x " "u" " y;z" :=
  ⟨past, ⟨waiting, [], 1⟩, [⟨⟨{ number := 1 }, [waiting], 2⟩, 6, .word .bare "u" true⟩],
    ⟨⟨1, some "u", false, false⟩, [waiting], 2⟩, future 2 8,
    by decide +kernel, by decide, rfl⟩

theorem isSubstitution_comment : IsSubstitution unknownArity "t -x " "u;# ]\n" " y;z" :=
  ⟨past, ⟨waiting, [], 1⟩,
    [⟨⟨{ number := 1 }, [waiting], 2⟩, 6, .word .bare "u" true⟩,
      ⟨⟨⟨1, some "u", false, false⟩, [waiting], 2⟩, 7, .separator ';'⟩,
      ⟨⟨{ number := 2 }, [waiting], 3⟩, 8, .comment "# ]"⟩,
      ⟨⟨{ number := 2 }, [waiting], 3⟩, 11, .separator '\n'⟩],
    ⟨⟨2, none, false, false⟩, [waiting], 3⟩, future 3 13,
    by decide +kernel, by decide, rfl⟩

end ValueLine

theorem substitution_opaque_comment :
    IsSubstitution unknownArity "t -x " "u" " y;z" ∧
    IsSubstitution unknownArity "t -x " "u;# ]\n" " y;z" ∧
    ∃ words inner inner' behind number,
      Around unknownArity "t -x " "u" " y;z" words inner behind ∧
      Around unknownArity "t -x " "u;# ]\n" " y;z" words inner'
        (behind.map (Token.move (Text.byteLength "u") (Text.byteLength "u;# ]\n") number)) ∧
      (∀ token ∈ words, number token.invocation = token.invocation) ∧
      (∀ token ∈ words ++ behind, ∀ other ∈ words ++ behind,
        token.invocation < other.invocation →
          number token.invocation < number other.invocation) ∧
      (scan unknownArity true ("t -x " ++ '[' :: ("u;# ]\n" ++ ']' :: " y;z"))).complete =
        (scan unknownArity true ("t -x " ++ '[' :: ("u" ++ ']' :: " y;z"))).complete :=
  ⟨ValueLine.isSubstitution_word, ValueLine.isSubstitution_comment,
    substitution_opaque ValueLine.isSubstitution_word ValueLine.isSubstitution_comment⟩

end CommandFrame.Line
