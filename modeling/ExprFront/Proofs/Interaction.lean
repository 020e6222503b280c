import ExprFront.Program.Result
import ExprFront.Session.Callbacks
import ExprFront.Proofs.Occurrences
import ExprFront.Proofs.Turns

/-!
# Interactive sessions

An interactive session prompts once for each turn that looks at a token, the first time before it
has read anything. At any other callback it has read its source up to one character behind the
current token. Scanning at the end reads nothing and finds the end again.
-/

namespace ExprFront
set_option autoImplicit false

/-! ## Characters read -/

namespace Scanner

/-- A scanner between two texts has read the first one and one character of the other. -/
theorem Between.charactersRead {s : Scanner} {before rest : List Char}
    (h : s.Between before rest) :
    s.reader.charactersRead (before ++ rest).length =
      min (before ++ rest).length (before.length + 1) := by
  rw [Reader.charactersRead, h.pending, List.length_append]
  omega

theorem next_of_exhausted {s : Scanner} (h : s.reader.pending = []) :
    s.next = (⟨.endOfInput, s.reader.position.within s.filename⟩,
      { s with count := s.count + 1 }) := by
  simp only [next, h, gapLength, Reader.skip, lexemeAt, wordAfter, numberAfter]

theorem listing_of_exhausted {s : Scanner} (h : s.reader.pending = []) (n : Nat) :
    ∀ r ∈ s.listing n, r.1 = ⟨.endOfInput, s.reader.position.within s.filename⟩ ∧
      r.2.reader = s.reader := by
  induction n generalizing s with
  | zero => simp [listing]
  | succ n ih =>
    rw [listing, next_of_exhausted h, List.forall_mem_cons]
    exact ⟨⟨rfl, rfl⟩, ih (s := { s with count := s.count + 1 }) h⟩

/-- What follows the end of the input is the same end, found by the same reader. -/
theorem listing_of_isEnd {s : Scanner} (h : s.next.1.isEnd = true) (n : Nat) :
    ∀ r ∈ s.next.2.listing n, r.1 = s.next.1 ∧ r.2.reader = s.next.2.reader := by
  have hnil := s.next_isEnd_iff.mp h
  have hpending : s.next.2.reader.pending = [] := by rw [next_pending, hnil, List.drop_nil]
  have hreader : s.next.2.reader = s.reader.skip (gapLength false s.reader.pending) := by
    rw [next_reader, hnil]
    rfl
  have htoken : s.next.1 = ⟨.endOfInput, s.next.2.reader.position.within s.filename⟩ := by
    rw [← Token.lexeme_of_isEnd h, hreader]
    rfl
  rw [htoken]
  exact listing_of_exhausted hpending n

/-- The tokens of a source end with the first end of the input. Behind it nothing is left to read. -/
theorem tokens_end (s : Scanner) :
    ∃ body e, s.tokens = body ++ [e] ∧ (∀ r ∈ body, r.1.isEnd = false) ∧ e.1.isEnd = true ∧
      e.2.reader.pending = [] ∧
      ∀ n, ∀ r ∈ e.2.listing n, r.1 = e.1 ∧ r.2.reader = e.2.reader := by
  fun_induction tokens s with
  | case1 s h =>
    have hpending : s.next.2.reader.pending = [] := by
      rw [next_pending, s.next_isEnd_iff.mp h, List.drop_nil]
    exact ⟨[], s.next, rfl, by simp, h, hpending, s.listing_of_isEnd h⟩
  | case2 s h ih =>
    obtain ⟨body, e, htokens, hbody, hend⟩ := ih
    have he : s.next.1.isEnd = false := by simpa using h
    exact ⟨s.next :: body, e, by rw [htokens]; rfl, List.forall_mem_cons.mpr ⟨he, hbody⟩, hend⟩

end Scanner

/-! ## Callbacks -/

def Turn.isSeparator : Turn → Bool
  | .separator => true
  | _ => false

def promptCount (calls : List (Callback × Session)) : Nat :=
  calls.countP fun c => c.1.isPrompt

def separatorCount (bs : List Session.Beat) : Nat :=
  bs.countP fun b => b.turn.isSeparator

namespace Session

/-- The turn drops a semicolon or makes a unit. -/
def Beat.Dispatches (b : Beat) : Prop :=
  b.turn = .separator ∧ b.before.lookahead.token.lexeme = .char ';' ∨ ∃ u, b.turn = .unit u

/-- The last turn of the session found the end of its input, or was left out because of the limit. -/
def EndsWith (s : Session) (last : Beat) : Prop :=
  last.turn = .endOfInput ∧ last.before.lookahead.token.isEnd = true ∧
      s.final.aborted = s.aborted ∨
    last.turn = .aborted ∧ s.final.aborted = true

theorem callbacksOf_cons (b : Beat) (bs : List Beat) :
    callbacksOf (b :: bs) = b.callbacks ++ callbacksOf bs := List.flatMap_cons

/-- A callback finds the session as it is before or after a turn. -/
theorem mem_callbacksOf {bs : List Beat} {c : Callback × Session} (h : c ∈ callbacksOf bs) :
    ∃ b ∈ bs, c.2 = b.before ∨ c.2 = b.after := by
  obtain ⟨b, hb, hc⟩ := List.mem_flatMap.mp h
  refine ⟨b, hb, ?_⟩
  rw [Beat.callbacks, List.mem_append] at hc
  obtain hc | hc := hc
  · split at hc
    · obtain rfl := List.mem_singleton.mp hc
      exact .inl rfl
    · simp at hc
  · obtain ⟨u, -, rfl⟩ := Option.map_eq_some_iff.mp (Option.mem_toList.mp hc)
    exact .inr rfl

/-- One prompt, and the unit if there is one. -/
theorem Beat.Dispatches.callbacks {b : Beat} (h : b.Dispatches) :
    b.callbacks.map Prod.fst = .prompt :: (b.turn.unit?.map Callback.unit).toList := by
  obtain ⟨ht, -⟩ | ⟨u, ht⟩ := h
  · simp only [Beat.callbacks, ht]
    rfl
  · simp only [Beat.callbacks, ht]
    rfl

/-- The callbacks count the prompts of the turns. -/
theorem promptCount_callbacksOf (bs : List Beat) : promptCount (callbacksOf bs) = promptsOf bs := by
  induction bs with
  | nil => rfl
  | cons b bs ih =>
    have hb : promptCount b.callbacks = if b.turn.prompts then 1 else 0 := by
      unfold promptCount Beat.callbacks
      cases b.turn <;> rfl
    rw [promptCount] at ih hb
    rw [promptCount, callbacksOf_cons, List.countP_append, ih, hb, promptsOf, promptsOf,
      List.countP_cons, Nat.add_comm]

theorem promptsOf_dispatched {bs : List Beat} (h : ∀ b ∈ bs, b.Dispatches) :
    promptsOf bs = (unitsOf bs).length + separatorCount bs := by
  induction bs with
  | nil => rfl
  | cons b bs ih =>
    obtain ⟨hb, hbs⟩ := List.forall_mem_cons.mp h
    have ih := ih hbs
    rw [promptsOf, separatorCount] at ih
    rw [promptsOf, separatorCount, List.countP_cons, List.countP_cons, unitsOf_cons, ih,
      List.length_append]
    obtain ⟨ht, -⟩ | ⟨u, ht⟩ := hb
    · simp only [ht, Turn.prompts, Turn.isSeparator, Turn.unit?, if_true, Option.toList_none,
        List.length_nil]
      omega
    · simp only [ht, Turn.prompts, Turn.isSeparator, Turn.unit?, if_true, Option.toList_some,
        List.length_singleton, Bool.false_eq_true, if_false]
      omega

/-! ## Whole sessions -/

theorem Live.beats_end {s : Session} (h : s.Live) :
    ∃ body last, s.beats = body ++ [last] ∧ (∀ b ∈ body, b.Dispatches) ∧ s.EndsWith last := by
  induction s, h using Live.induction with
  | aborted s h ht =>
    refine ⟨[], _, beats_of_last_turn ht rfl, by simp, .inr ⟨rfl, ?_⟩⟩
    rw [final_of_last_turn ht rfl]
    rfl
  | endOfInput s h he ht =>
    refine ⟨[], _, beats_of_last_turn ht rfl, by simp, .inl ⟨rfl, he, ?_⟩⟩
    rw [final_of_last_turn ht rfl]
    rfl
  | separator s h hs ht h' ih =>
    obtain ⟨body, last, hbeats, hbody, hlast⟩ := ih
    rw [beats_of_turn ht rfl, hbeats]
    refine ⟨_ :: body, last, rfl, List.forall_mem_cons.mpr ⟨.inl ⟨rfl, hs⟩, hbody⟩, ?_⟩
    rw [EndsWith, final_of_turn ht rfl]
    exact hlast
  | derived s h ts m u hr hu ht h' ih =>
    obtain ⟨body, last, hbeats, hbody, hlast⟩ := ih
    rw [beats_of_turn ht rfl, hbeats]
    refine ⟨_ :: body, last, rfl, List.forall_mem_cons.mpr ⟨.inr ⟨u, rfl⟩, hbody⟩, ?_⟩
    rw [EndsWith, final_of_turn ht rfl]
    exact hlast
  | failed s h ts m cause he hr hf ht h' ih =>
    obtain ⟨body, last, hbeats, hbody, hlast⟩ := ih
    rw [beats_of_turn ht rfl, hbeats]
    refine ⟨_ :: body, last, rfl, List.forall_mem_cons.mpr ⟨.inr ⟨_, rfl⟩, hbody⟩, ?_⟩
    rw [EndsWith, final_of_turn ht rfl]
    exact hlast

/-- One prompt for each unit and each semicolon, and one more if the end of the input was found. -/
theorem Live.promptCount_eq {s : Session} (h : s.Live) (ha : s.aborted = false) :
    promptCount (callbacksOf s.beats) =
      (unitsOf s.beats).length + separatorCount s.beats + (if s.final.aborted then 0 else 1) := by
  obtain ⟨body, last, hbeats, hbody, hlast⟩ := h.beats_end
  have hprompts : promptsOf s.beats = promptsOf body + promptsOf [last] := by
    rw [hbeats, promptsOf, List.countP_append, promptsOf, promptsOf]
  have hunits : unitsOf s.beats = unitsOf body ++ unitsOf [last] := by
    rw [hbeats, unitsOf, List.filterMap_append, unitsOf, unitsOf]
  have hseparators : separatorCount s.beats = separatorCount body + separatorCount [last] := by
    rw [hbeats, separatorCount, List.countP_append, separatorCount, separatorCount]
  rw [promptCount_callbacksOf, hprompts, hunits, hseparators, promptsOf_dispatched hbody,
    List.length_append]
  -- The last turn makes no unit and drops nothing.
  obtain ⟨ht, -, hf⟩ | ⟨ht, hf⟩ := hlast
  · simp only [promptsOf, unitsOf, separatorCount, List.countP_singleton, List.filterMap_cons,
      List.filterMap_nil, ht, hf, ha, Turn.prompts, Turn.unit?, Turn.isSeparator]
    simp
  · simp only [promptsOf, unitsOf, separatorCount, List.countP_singleton, List.filterMap_cons,
      List.filterMap_nil, ht, hf, Turn.prompts, Turn.unit?, Turn.isSeparator]
    simp

/-- A session that has a current token keeps having one. -/
theorem Live.beats_current {s : Session} (h : s.Live) (hs : s.parser.current.isSome = true) :
    ∀ b ∈ s.beats, b.before.parser.current.isSome = true ∧
      b.after.parser.current.isSome = true := by
  induction s, h using Live.induction with
  | aborted s h ht =>
    rw [beats_of_last_turn ht rfl, List.forall_mem_singleton]
    exact ⟨hs, hs⟩
  | endOfInput s h he ht =>
    rw [beats_of_last_turn ht rfl, List.forall_mem_singleton]
    exact ⟨hs, by rw [atEnd, s.current_prime]; rfl⟩
  | separator s h hsep ht h' ih =>
    rw [beats_of_turn ht rfl, List.forall_mem_cons]
    exact ⟨⟨hs, rfl⟩, ih rfl⟩
  | derived s h ts m u hr hu ht h' ih =>
    rw [beats_of_turn ht rfl, List.forall_mem_cons]
    exact ⟨⟨hs, rfl⟩, ih rfl⟩
  | failed s h ts m cause he hr hf ht h' ih =>
    rw [beats_of_turn ht rfl, List.forall_mem_cons]
    exact ⟨⟨hs, rfl⟩, ih rfl⟩

theorem Live.callbacks_current {s : Session} (h : s.Live) (hs : s.parser.current.isSome = true) :
    ∀ c ∈ callbacksOf s.beats, c.2.parser.current.isSome = true := by
  intro c hc
  obtain ⟨b, hb, hc⟩ := mem_callbacksOf hc
  obtain ⟨hbefore, hafter⟩ := h.beats_current hs b hb
  obtain hc | hc := hc
  · rw [hc]
    exact hbefore
  · rw [hc]
    exact hafter

/-- The first callback of a session is a prompt, and all others find a current token. -/
theorem Live.callbacks_first {s : Session} (h : s.Live) (hready : s.Ready) :
    ∃ later, callbacksOf s.beats = (.prompt, s) :: later ∧
      ∀ c ∈ later, c.2.parser.current.isSome = true := by
  induction s, h using Live.induction with
  | aborted s h ht =>
    have htaken := hready.taken
    rw [ht] at htaken
    cases htaken
  | endOfInput s h he ht =>
    rw [beats_of_last_turn ht rfl]
    exact ⟨[], rfl, by simp⟩
  | separator s h hsep ht h' ih =>
    rw [beats_of_turn ht rfl, callbacksOf_cons]
    exact ⟨_, rfl, h'.callbacks_current rfl⟩
  | derived s h ts m u hr hu ht h' ih =>
    rw [beats_of_turn ht rfl, callbacksOf_cons]
    exact ⟨_, rfl, List.forall_mem_cons.mpr ⟨rfl, h'.callbacks_current rfl⟩⟩
  | failed s h ts m cause he hr hf ht h' ih =>
    rw [beats_of_turn ht rfl, callbacksOf_cons]
    exact ⟨_, rfl, List.forall_mem_cons.mpr ⟨rfl, h'.callbacks_current rfl⟩⟩

/-- The session stands at a current token and has read its source up to one character behind that. -/
def ReadsAhead (filename : String) (source : List Char) (s : Session) : Prop :=
  ∃ t before text rest, s.parser.current = some t ∧
    Occurs filename source before text rest t ∧
    s.charactersRead source.length = min source.length ((before ++ text).length + 1)

theorem readsAhead_of_standsIn {filename : String} {source : List Char} {s : Session}
    (h : StandsIn filename source s.lookahead) (hs : s.parser.current.isSome = true) :
    s.ReadsAhead filename source := by
  have hscanner := lookahead_scanner hs
  obtain ⟨t, ht⟩ := Option.isSome_iff_exists.mp hs
  have htoken : s.lookahead.token = t := by simp only [lookahead, Parser.lookahead, ht]
  obtain ⟨before, text, rest, hoccurs, hbetween⟩ := h.occurs
  rw [hscanner] at hbetween
  rw [htoken] at hoccurs
  refine ⟨t, before, text, rest, ht, hoccurs, ?_⟩
  rw [hoccurs.source_eq, ← List.append_assoc]
  exact hbetween.charactersRead

theorem Live.callbacks_standsIn {filename : String} {source : List Char} {s : Session}
    (h : s.Live) (hs : StandsIn filename source s.lookahead) :
    ∀ c ∈ callbacksOf s.beats, StandsIn filename source c.2.lookahead := by
  intro c hc
  obtain ⟨b, hb, hc⟩ := mem_callbacksOf hc
  obtain ⟨hbefore, hafter⟩ := h.keeps (fun l hl => hl.advance) hs b hb
  obtain hc | hc := hc
  · rw [hc]
    exact hbefore
  · rw [hc]
    exact hafter

end Session

/-- A run first prompts with nothing read, and at any other callback has read up to one character
behind the current token. Each dispatch has one prompt, and so has the end of the input. Once that
was found, scanning finds it again and reads nothing. -/
theorem Options.run_interactive (o : Options) (source : List Char) (name : Option String) :
    let s := o.session source name
    let r := o.run source name
    let calls := callbacksOf s.beats
    (∃ later, calls = (.prompt, s) :: later ∧ s.charactersRead source.length = 0 ∧
      ∀ c ∈ later, c.2.ReadsAhead (o.nameOf name) source) ∧
    (∃ body last, s.beats = body ++ [last] ∧ s.EndsWith last ∧
      last.callbacks.map Prod.fst = (if r.aborted then [] else [.prompt]) ∧
      ∀ b ∈ body, b.Dispatches ∧
        b.callbacks.map Prod.fst = .prompt :: (b.turn.unit?.map Callback.unit).toList) ∧
    promptCount calls =
      r.units.length + separatorCount s.beats + (if r.aborted then 0 else 1) ∧
    ∃ before e, (Scanner.ofSource source (o.nameOf name)).tokens = before ++ [e] ∧
      (∀ p ∈ before, p.1.isEnd = false) ∧ e.1.isEnd = true ∧
      e.2.reader.charactersRead source.length = source.length ∧
      ∀ n, ∀ p ∈ e.2.listing n, p.1 = e.1 ∧ p.2.reader = e.2.reader := by
  intro s r calls
  have hlive : s.Live := o.live_session source name
  have haborted : r.aborted = s.final.aborted := rfl
  refine ⟨?_, ?_, ?_, ?_⟩
  · obtain ⟨later, hcalls, hcurrent⟩ := hlive.callbacks_first (o.ready_session source name)
    have hstands := hlive.callbacks_standsIn (standsIn_ofSource (o.nameOf name) source)
    refine ⟨later, hcalls, ?_, ?_⟩
    · show min source.length (source.length + 1 - (source.length + 1)) = 0
      omega
    · intro c hc
      have hmem : c ∈ callbacksOf s.beats := hcalls ▸ List.mem_cons_of_mem _ hc
      exact Session.readsAhead_of_standsIn (hstands c hmem) (hcurrent c hc)
  · obtain ⟨body, last, hbeats, hbody, hlast⟩ := hlive.beats_end
    refine ⟨body, last, hbeats, hlast, ?_, fun b hb => ⟨hbody b hb, (hbody b hb).callbacks⟩⟩
    rw [haborted, Session.Beat.callbacks]
    obtain ⟨ht, -, hf⟩ | ⟨ht, hf⟩ := hlast
    · rw [hf, ht]
      rfl
    · rw [hf, ht]
      rfl
  · exact hlive.promptCount_eq rfl
  · obtain ⟨before, e, htokens, hbefore, he, hpending, hend⟩ :=
      (Scanner.ofSource source (o.nameOf name)).tokens_end
    refine ⟨before, e, htokens, hbefore, he, ?_, hend⟩
    rw [Reader.charactersRead, hpending, List.length_nil]
    omega

/-- Two expressions with a semicolon between them and a line feed at the end. -/
theorem Options.run_interactive_default :
    let s := Options.default.session "f(1);x\n".toList none
    let calls := callbacksOf s.beats
    calls.map (fun c => (c.1.label, c.2.charactersRead 7)) =
        [("prompt", 0), ("EXPRESSION", 6), ("prompt", 6), ("prompt", 7), ("EXPRESSION", 7),
          ("prompt", 7)] ∧
      promptCount calls = 4 ∧
      ∃ later, calls = (.prompt, s) :: later ∧
        ∀ c ∈ later, c.2.ReadsAhead "<stdin>" "f(1);x\n".toList := by
  intro s calls
  have hcalls : calls.map (fun c => (c.1.label, c.2.charactersRead 7)) =
      [("prompt", 0), ("EXPRESSION", 6), ("prompt", 6), ("prompt", 7), ("EXPRESSION", 7),
        ("prompt", 7)] := by
    decide +kernel
  have hcount : (Options.default.run "f(1);x\n".toList none).units.length +
      separatorCount s.beats = 3 := by
    decide +kernel
  have haborted : (Options.default.run "f(1);x\n".toList none).aborted = false := by
    decide +kernel
  obtain ⟨⟨later, hlater, -, hreads⟩, -, hprompts, -⟩ :=
    Options.run_interactive .default "f(1);x\n".toList none
  rw [haborted] at hprompts
  exact ⟨hcalls, hprompts.trans (congrArg (· + 1) hcount), later, hlater, hreads⟩

end ExprFront
