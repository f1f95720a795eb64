import SpokenKeys.Proofs.Hearing

/-!
Filler words before an utterance. The tolerant entry point hears what follows
them as the strict one hears it alone: the two generate the same bodies, so what
follows goes on through the same labels and stops at the same one.
-/

namespace SpokenKeys

open Commands

/-- A label that is neither a filler word nor the closing marker. -/
def Lexicon.isOpening (label : String) : Bool := !(Token.endLabel :: junkWords).contains label

/-- Nothing but the filler words is dropped. -/
theorem Lexicon.dropWhile_filler {filler rest : List String} {label : String}
    (hfiller : ∀ label ∈ filler, isJunk label = true) (hlabel : isOpening label = true) :
    (filler ++ label :: rest).dropWhile isJunk = label :: rest := by
  have hjunk : isJunk label = false := by
    rw [isOpening, List.contains_cons, Bool.not_eq_true', Bool.or_eq_false_iff] at hlabel
    exact hlabel.2
  rw [List.dropWhile_append_of_pos hfiller, List.dropWhile_cons, hjunk]
  rfl

namespace Commands

variable {filler core rest : List String} {label : String} {body : Rule} {last : Nat}

theorem head_of_body (hbody : body ∈ Entry.bodies)
    (h : Derives grammar.table [n body, close] core) :
    ∃ label rest, core = label :: rest ∧ Lexicon.isOpening label = true := by
  have hshortest : ∀ body ∈ Entry.bodies, 0 < outline.shortestOf [n body, close] := by decide
  have hfirst : ∀ body ∈ Entry.bodies, ∀ label ∈ outline.firstOf [n body, close],
      Lexicon.isOpening label = true := by decide
  cases core with
  | nil => exact absurd (fits.shortestOf_le h) (Nat.not_le.mpr (hshortest body hbody))
  | cons label rest => exact ⟨label, rest, rfl, hfirst body hbody label (fits.mem_firstOf h)⟩

/-- What is not silent begins so. -/
theorem isOpening_of_generates {next : String}
    (h : grammar.Generates .input (label :: next :: rest)) : Lexicon.isOpening label = true := by
  rcases Entry.strict.generates_iff.mp h with
    hsilent | ⟨front, core, body, hbody, hequal, hfront, hcore⟩
  · cases hsilent
  · obtain ⟨first, more, rfl, hfirst⟩ := head_of_body hbody hcore
    rw [Derives.nil_iff.mp hfront, List.nil_append] at hequal
    cases hequal
    exact hfirst

/-- What an entry point generates with a body in it, is filler words and the body. -/
theorem generates_opening_iff (entry : Entry)
    (hfiller : ∀ label ∈ filler, Lexicon.isJunk label = true)
    (hlabel : Lexicon.isOpening label = true) :
    grammar.Generates entry.rule (filler ++ label :: rest) ↔
      Derives grammar.table entry.filler filler ∧
        ∃ body ∈ Entry.bodies, Derives grammar.table [n body, close] (label :: rest) := by
  rw [Entry.generates_iff]
  constructor
  · rintro (hsilent | ⟨front, core, body, hbody, hequal, hfront, hcore⟩)
    · -- Silence has no place for the label.
      obtain ⟨-, hequal⟩ | ⟨-, hequal⟩ := List.append_eq_singleton_iff.mp hsilent
      · cases hequal
        exact absurd hlabel (by decide)
      · cases hequal
    · obtain ⟨other, more, rfl, hother⟩ := head_of_body hbody hcore
      have hjunk : ∀ label ∈ front, Lexicon.isJunk label = true := by
        cases entry with
        | strict =>
            rw [Derives.nil_iff.mp hfront]
            simp
        | tolerant => exact isJunk_of_derives hfront
      have hsame := congrArg (List.dropWhile Lexicon.isJunk) hequal
      rw [Lexicon.dropWhile_filler hfiller hlabel, Lexicon.dropWhile_filler hjunk hother] at hsame
      rw [hsame, List.append_left_inj] at hequal
      exact ⟨hequal ▸ hfront, body, hbody, hsame ▸ hcore⟩
  · rintro ⟨hfront, body, hbody, hcore⟩
    exact .inr ⟨filler, _, body, hbody, rfl, hfront, hcore⟩

/-- After filler words the tolerant entry point generates what the strict one
generates. -/
theorem generates_append_filler (hfiller : ∀ label ∈ filler, Lexicon.isJunk label = true)
    (hlabel : Lexicon.isOpening label = true) :
    grammar.Generates .tolerantInput (filler ++ label :: rest) ↔
      grammar.Generates .input (label :: rest) := by
  have htolerant : grammar.Generates .tolerantInput (filler ++ label :: rest) ↔ _ :=
    generates_opening_iff .tolerant hfiller hlabel
  have hnone : ∀ label ∈ ([] : List String), Lexicon.isJunk label = true := by simp
  have hstrict : grammar.Generates .input ([] ++ label :: rest) ↔ _ :=
    generates_opening_iff .strict hnone hlabel
  rw [List.nil_append] at hstrict
  rw [htolerant, hstrict]
  exact and_congr (iff_of_true (derives_junk.mpr hfiller) .nil) Iff.rfl

theorem begins_append_filler (hfiller : ∀ label ∈ filler, Lexicon.isJunk label = true)
    (hlabel : Lexicon.isOpening label = true) :
    grammar.Begins .tolerantInput (filler ++ label :: rest) ↔
      grammar.Begins .input (label :: rest) := by
  simp only [Grammar.Begins, List.append_assoc, List.cons_append,
    generates_append_filler hfiller hlabel]

/-- Filler words can always go on: they begin a phrase that turns the session. -/
theorem begins_filler (hfiller : ∀ label ∈ filler, Lexicon.isJunk label = true) :
    grammar.Begins .tolerantInput filler := by
  have hturn : Derives grammar.table [n .sleepPhrase, close]
      (Session.asleep.phrase ++ [Token.endLabel]) :=
    (derives_sleepPhrase.mpr ⟨_, rfl⟩).append (.terminal .nil)
  exact ⟨_, Entry.tolerant.generates_iff.mpr
    (.inr ⟨filler, _, .sleepPhrase, by decide, rfl, derives_junk.mpr hfiller, hturn⟩)⟩

/-- Filler words before what is rejected move the place of rejection along. -/
theorem rejectsAt_append_filler (hfiller : ∀ label ∈ filler, Lexicon.isJunk label = true)
    (hlabel : Lexicon.isOpening label = true)
    (h : grammar.RejectsAt .input (label :: rest) last) :
    grammar.RejectsAt .tolerantInput (filler ++ label :: rest) (filler.length + last) := by
  have htake (place : Nat) : (filler ++ label :: rest).take (filler.length + place + 1) =
      filler ++ label :: rest.take place := by
    rw [Nat.add_assoc, List.take_length_add_append, List.take_succ_cons]
  have hbegins (place : Nat) :
      grammar.Begins .tolerantInput ((filler ++ label :: rest).take (filler.length + place + 1)) ↔
        grammar.Begins .input ((label :: rest).take (place + 1)) := by
    rw [htake, List.take_succ_cons, begins_append_filler hfiller hlabel]
  obtain ⟨hlt, hbefore, hafter⟩ := h
  refine ⟨by rw [List.length_append]; omega, fun earlier hearlier => ?_, ?_⟩
  · by_cases hinside : earlier < filler.length
    · rw [List.take_append_of_le_length hinside]
      exact begins_filler fun label hmem => hfiller label (List.mem_of_mem_take hmem)
    · obtain ⟨place, rfl⟩ := Nat.exists_eq_add_of_le (Nat.not_lt.mp hinside)
      exact (hbegins place).mpr (hbefore place (by omega))
  · rcases hafter with hunviable | ⟨hend, hwhole⟩
    · exact .inl fun hviable => hunviable ((hbegins last).mp hviable)
    · refine .inr ⟨by rw [List.length_append]; omega, ?_⟩
      exact (begins_append_filler hfiller hlabel).mpr hwhole

end Commands

/-- What the strict entry point hears, the tolerant one hears after filler words. -/
theorem Entry.Hears.append_filler {filler tokens : List Token} {verdict : Verdict}
    (h : Entry.strict.Hears tokens verdict)
    (hfiller : ∀ token ∈ filler, Lexicon.isJunk token.kind = true)
    (hspoken : verdict = .silence → filler = []) :
    Entry.tolerant.Hears (filler ++ tokens) verdict := by
  have hderives : Derives grammar.table Entry.tolerant.filler (filler.map Token.kind) :=
    derives_junk.mpr (List.forall_mem_map.mpr hfiller)
  cases h with
  | silence hclosing =>
      rw [hspoken rfl]
      exact .silence hclosing
  | turn hfront hphrase hclosing =>
      rw [List.map_eq_nil_iff.mp (Derives.nil_iff.mp hfront)]
      exact .turn hderives hphrase hclosing
  | chain hfront hbody hclosing =>
      rw [List.map_eq_nil_iff.mp (Derives.nil_iff.mp hfront)]
      exact .chain hderives hbody hclosing

namespace Parser

variable {strict tolerant : Parser} {filler tokens rest : List Token} {first : Token}
  {outcome : ParseOutcome}

/-- What the strict entry point accepts, the tolerant one accepts alike after filler
words, or as it is. -/
theorem heard_alike (hstrict : strict.entry = .strict) (htolerant : tolerant.entry = .tolerant)
    (hsession : tolerant.session = strict.session)
    (hfiller : ∀ token ∈ filler, Lexicon.isJunk token.kind = true)
    (hspoken : filler = [] ∨ tokens.map Token.kind ≠ [Token.endLabel])
    (hlength : filler.length + tokens.length ≤ Limits.tokens)
    (h : (strict.heard tokens).1 = .ok outcome) :
    ∃ other, (tolerant.heard (filler ++ tokens)).1 = .ok other ∧ other.action = outcome.action ∧
      (tolerant.heard (filler ++ tokens)).2.session = (strict.heard tokens).2.session := by
  obtain ⟨verdict, hhears, -, haction, hafter⟩ := exists_hears_of_heard h
  have hsilent : verdict = .silence → filler = [] := by
    rintro rfl
    obtain ⟨closing, rfl, hkind⟩ := hhears.eq_closing
    refine hspoken.resolve_right fun hnot => hnot ?_
    rw [List.map_singleton, hkind]
  rw [hstrict] at hhears
  have hfilled := hhears.append_filler hfiller hsilent
  rw [← htolerant] at hfilled
  obtain ⟨other, hother, haction', hafter'⟩ :=
    heard_of_hears (by rwa [List.length_append]) hfilled
  rw [hsession] at haction' hafter'
  exact ⟨other, hother, haction'.trans haction.symm, hafter'.trans hafter.symm⟩

/-- What the strict entry point does not generate, both reject at the same token. -/
theorem rejected_alike (hstrict : strict.entry = .strict) (htolerant : tolerant.entry = .tolerant)
    (hfiller : ∀ token ∈ filler, Lexicon.isJunk token.kind = true)
    (hfirst : Lexicon.isOpening first.kind = true)
    (hlength : filler.length + (first :: rest).length ≤ Limits.tokens)
    (h : ¬ grammar.Generates .input ((first :: rest).map Token.kind)) :
    ∃ place token, (first :: rest)[place]? = some token ∧
      Chart.build grammar .input (first :: rest) = .error (.rejected place) ∧
      Chart.build grammar .tolerantInput (filler ++ first :: rest) =
        .error (.rejected (filler.length + place)) ∧
      (strict.heard (first :: rest)).1 = .error (.unexpectedToken token) ∧
      (tolerant.heard (filler ++ first :: rest)).1 = .error (.unexpectedToken token) := by
  have hkinds : ∀ label ∈ filler.map Token.kind, Lexicon.isJunk label = true :=
    List.forall_mem_map.mpr hfiller
  have hlength' : (filler ++ first :: rest).length ≤ Limits.tokens := by rwa [List.length_append]
  have hnot : ¬ grammar.Generates .tolerantInput ((filler ++ first :: rest).map Token.kind) := by
    rw [List.map_append, List.map_cons, generates_append_filler hkinds hfirst]
    exact h
  obtain ⟨place, hplace, hrejects⟩ := build_rejects (List.cons_ne_nil _ _) (by omega) h
  obtain ⟨place', hplace', hrejects'⟩ := build_rejects (by simp) hlength' hnot
  have hmoved := rejectsAt_append_filler hkinds hfirst hrejects
  rw [List.map_append] at hrejects'
  obtain rfl := hrejects'.unique hmoved
  rw [List.length_map] at hplace'
  have htoken := List.getElem?_eq_getElem (List.length_map _ ▸ hrejects.1)
  refine ⟨place, _, htoken, hplace, hplace', ?_, ?_⟩
  · rw [← show strict.entry.rule = .input by rw [hstrict]; rfl] at hplace
    exact strict.heard_of_rejected (by omega) hplace htoken
  · rw [← show tolerant.entry.rule = .tolerantInput by rw [htolerant]; rfl] at hplace'
    refine tolerant.heard_of_rejected hlength' hplace' ?_
    rw [List.getElem?_append_right (Nat.le_add_right _ _), Nat.add_sub_cancel_left, htoken]

/-- After filler words the tolerant entry point hears what the strict one hears. -/
theorem heard_append_filler (hstrict : strict.entry = .strict)
    (htolerant : tolerant.entry = .tolerant) (hsession : tolerant.session = strict.session)
    (hfiller : ∀ token ∈ filler, Lexicon.isJunk token.kind = true)
    (hfirst : Lexicon.isOpening first.kind = true)
    (hlength : filler.length + (first :: rest).length ≤ Limits.tokens) :
    (∃ outcome other, (strict.heard (first :: rest)).1 = .ok outcome ∧
      (tolerant.heard (filler ++ first :: rest)).1 = .ok other ∧ other.action = outcome.action ∧
      (tolerant.heard (filler ++ first :: rest)).2.session =
        (strict.heard (first :: rest)).2.session) ∨
    ∃ place token, (first :: rest)[place]? = some token ∧
      Chart.build grammar .input (first :: rest) = .error (.rejected place) ∧
      Chart.build grammar .tolerantInput (filler ++ first :: rest) =
        .error (.rejected (filler.length + place)) ∧
      (strict.heard (first :: rest)).1 = .error (.unexpectedToken token) ∧
      (tolerant.heard (filler ++ first :: rest)).1 = .error (.unexpectedToken token) := by
  by_cases hgenerates : grammar.Generates .input ((first :: rest).map Token.kind)
  · have hsentence : grammar.Generates strict.entry.rule ((first :: rest).map Token.kind) := by
      rw [hstrict]
      exact hgenerates
    have hspoken : (first :: rest).map Token.kind ≠ [Token.endLabel] := by
      intro hsilent
      rw [(List.cons.inj hsilent).1] at hfirst
      exact absurd hfirst (by decide)
    obtain ⟨outcome, houtcome⟩ := heard_of_generates (by omega) hsentence
    obtain ⟨other, hother, halike⟩ :=
      heard_alike hstrict htolerant hsession hfiller (.inr hspoken) hlength houtcome
    exact .inl ⟨outcome, other, houtcome, hother, halike⟩
  · exact .inr (rejected_alike hstrict htolerant hfiller hfirst hlength hgenerates)

end Parser

/-- Dropping filler words is as if they had never been said. Whatever the session,
an utterance that begins with neither a filler word nor the closing marker comes
to the same at the tolerant entry point with filler words before it, as it does
at the strict one without them: the same action and the same session after it,
or the same token is unexpected, where both charts stop. -/
theorem filler_as_if_never_said (parser : Parser) (filler rest : List Token) (first : Token)
    (journal later : Log.Journal)
    (hfiller : ∀ token ∈ filler, token.kind ∈ ["i", "the", "a", "and"])
    (hfirst : first.kind ∉ [Token.endLabel, "i", "the", "a", "and"])
    (hlength : filler.length + (first :: rest).length ≤ Limits.tokens) :
    let bare := (({ parser with entry := .strict }.parse (first :: rest)).run journal).1
    let filled :=
      (({ parser with entry := .tolerant }.parse (filler ++ first :: rest)).run later).1
    (∃ outcome other, bare.1 = .ok outcome ∧ filled.1 = .ok other ∧
      other.action = outcome.action ∧ filled.2.session = bare.2.session) ∨
    ∃ place token, (first :: rest)[place]? = some token ∧
      Chart.build grammar .input (first :: rest) = .error (.rejected place) ∧
      Chart.build grammar .tolerantInput (filler ++ first :: rest) =
        .error (.rejected (filler.length + place)) ∧
      bare.1 = .error (.unexpectedToken token) ∧ filled.1 = .error (.unexpectedToken token) := by
  have hjunk : ∀ token ∈ filler, Lexicon.isJunk token.kind = true := by
    intro token hmem
    exact List.contains_iff_mem.mpr (hfiller token hmem)
  have hopening : Lexicon.isOpening first.kind = true := by
    simpa [Lexicon.isOpening, Lexicon.junkWords] using hfirst
  simp only [Parser.parse_fst]
  exact Parser.heard_append_filler rfl rfl rfl hjunk hopening hlength

/-- A step up with two filler words before it is a step up. -/
theorem the_and_up_heard_as_up : ∃ outcome other : ParseOutcome,
    ((({ entry := .strict } : Parser).parse [.ofWord "up" 2, .closing 3]).run {}).1.1 =
      .ok outcome ∧
    ((({ entry := .tolerant } : Parser).parse
      ([.ofWord "the" 0, .ofWord "and" 1] ++ [.ofWord "up" 2, .closing 3])).run {}).1.1 =
        .ok other ∧
    outcome.action = .chain [.move .up] ∧ other.action = .chain [.move .up] := by
  have hmove : Says .movement [Token.ofWord "up" 2] (.node (.move .up)) :=
    says_movement.mpr ⟨_, [], .up, rfl, rfl, .inl ⟨rfl, rfl⟩⟩
  have hbody : Says .commands [Token.ofWord "up" 2] (.node (.chain [.move .up])) :=
    .chain_single (by decide) hmove
  have hawake : ({ entry := .strict } : Parser).session = .awake := rfl
  have hclosing : (Token.closing 3).kind = Token.endLabel := rfl
  have hlength : ([Token.ofWord "up" 2] ++ [Token.closing 3]).length ≤ Limits.tokens := by decide
  obtain ⟨moved, hmoved, haction⟩ := Parser.heard_commands hawake hbody hclosing hlength
  rw [List.singleton_append, ← Parser.parse_fst _ _ {}] at hmoved
  have halike := filler_as_if_never_said { entry := .strict } [.ofWord "the" 0, .ofWord "and" 1]
    [.closing 3] (.ofWord "up" 2) {} {} (by decide) (by decide) (by decide)
  dsimp only at halike
  rcases halike with
    ⟨outcome, other, houtcome, hother, hsame, -⟩ | ⟨_, _, -, -, -, hrejected, -⟩
  · cases hmoved.symm.trans houtcome
    exact ⟨moved, other, hmoved, hother, haction, hsame.trans haction⟩
  · cases hmoved.symm.trans hrejected

end SpokenKeys
