import SpokenKeys.Proofs.Chaining
import SpokenKeys.Proofs.Exchange
import SpokenKeys.Proofs.Hearing
import SpokenKeys.Proofs.SpokenNumbers

/-!
Synonyms. Words for the same key can be said for one another in any utterance, and
words that sound like the same number in any spoken number: the answer is the
same, and what is rejected is rejected at the same place.
-/

namespace SpokenKeys

open Commands Numeral

namespace Lexicon

/-- Words for the same key. -/
def synonyms : List (List String) := [
  ["alt", "alternative"], ["eco", "echo", "ergo"], ["whiskey", "whisky"], ["xray", "expert"],
  ["late", "len"], ["minus", "dash"], ["dot", "dit"]]

/-- Words that sound like the same number. -/
def homophones : List (List String) := [["two", "to"], ["four", "for"]]

end Lexicon

namespace Exchange

/-- Synonyms can be exchanged in the phrases of any nonterminal. -/
def ofSynonyms : Exchange where
  groups := Lexicon.synonyms
  inside _ := true
  goesAlong := by decide +kernel

/-- Homophones can be exchanged in the phrases of the nonterminals for numbers. -/
def ofHomophones : Exchange where
  groups := Lexicon.homophones
  inside rule := (rules ++ [Rule.hundreds, .tens, .ones, .small]).contains rule
  goesAlong := by decide +kernel

end Exchange

theorem numeral_inside : ∀ rule ∈ rules,
    rule.turnsSession = false ∧ Exchange.ofHomophones.inside rule = true := by
  decide

/-- The answers for two lists of tokens, as phrases of a nonterminal, are alike: both
are accepted and the results are the same; or the charts for both stop at one
place, where each has a token that is unexpected; or no token is to blame for
the rejection, which has one cause. -/
inductive AnsweredAlike {α : Type} (start : Rule) (tokens others : List Token)
    (same : α → α → Prop) : Except ParseError α → Except ParseError α → Prop where
  | accepted {result other : α} :
      same result other → AnsweredAlike start tokens others same (.ok result) (.ok other)
  | rejected {place : Nat} {token other : Token} :
      tokens[place]? = some token → others[place]? = some other →
      Chart.build grammar start tokens = .error (.rejected place) →
      Chart.build grammar start others = .error (.rejected place) →
      AnsweredAlike start tokens others same
        (.error (.unexpectedToken token)) (.error (.unexpectedToken other))
  | refused {cause : ParseError} : cause.token? = none →
      AnsweredAlike start tokens others same (.error cause) (.error cause)

variable {α : Type} {start : Rule} {tokens others : List Token} {same : α → α → Prop}
  {error error' : ParseError} {exchange : Exchange} {entry : Entry} {verdict : Verdict}

theorem AnsweredAlike.exists_ok {result : α} {answer : Except ParseError α}
    (h : AnsweredAlike start tokens others same (.ok result) answer) :
    ∃ other, answer = .ok other ∧ same result other := by
  cases h with
  | accepted hsame => exact ⟨_, rfl, hsame⟩

/-- Tokens that are rejected are so for the same reason after the exchange. -/
theorem Commands.Refuses.answeredAlike (h : Refuses start tokens error)
    (hother : Refuses start others error') (hinside : exchange.inside start = true)
    (hakin : List.Forall₂ (Token.Akin exchange.groups) tokens others) :
    AnsweredAlike start tokens others same (.error error) (.error error') := by
  have hlength := hakin.length_eq
  cases h with
  | empty hempty =>
      subst hempty
      obtain rfl := List.forall₂_nil_left_iff.mp hakin
      cases hother with
      | empty => exact .refused rfl
      | tooLong hlong => exact absurd hlong (Nat.not_lt_zero _)
      | rejected hsome => exact absurd rfl hsome
  | tooLong hlong =>
      rw [hlength] at hlong ⊢
      cases hother with
      | empty hempty => exact absurd hlong (by simp [hempty])
      | tooLong => exact .refused rfl
      | rejected _ hshort => exact absurd hlong (Nat.not_lt.mpr hshort)
  | rejected hsome hshort htoken hbuild hrejects =>
      cases hother with
      | empty hempty =>
          subst hempty
          exact absurd (List.forall₂_nil_right_iff.mp hakin) hsome
      | tooLong hlong => exact absurd (hlength ▸ hshort) (Nat.not_le.mpr hlong)
      | rejected _ _ htoken' hbuild' hrejects' =>
          have hsame := Exchange.rejectsAt hinside (Token.akin_kinds hakin) hrejects
          cases hrejects'.unique hsame
          exact .rejected htoken htoken' hbuild hbuild'

/-- Answers are alike if acceptance goes over to the others, and back from them. -/
theorem AnsweredAlike.of_accepted (exchange : Exchange) {answer answer' : Except ParseError α}
    (hinside : exchange.inside start = true)
    (hakin : List.Forall₂ (Token.Akin exchange.groups) tokens others)
    (hrefuses : ∀ error, answer = .error error → Refuses start tokens error)
    (hrefuses' : ∀ error, answer' = .error error → Refuses start others error)
    (hthere : ∀ result, answer = .ok result → ∃ other, answer' = .ok other ∧ same result other)
    (hback : ∀ other, answer' = .ok other → ∃ result, answer = .ok result) :
    AnsweredAlike start tokens others same answer answer' := by
  cases answer with
  | ok result =>
      obtain ⟨other, rfl, hsame⟩ := hthere result rfl
      exact .accepted hsame
  | error error =>
      cases answer' with
      | ok other =>
          obtain ⟨result, hresult⟩ := hback other rfl
          cases hresult
      | error error' => exact (hrefuses error rfl).answeredAlike (hrefuses' error' rfl) hinside hakin

namespace Entry

/-- Neither the closing marker nor a phrase that turns the session has synonyms in
it, and commands have the same value with others for them. -/
theorem Hears.synonyms (h : entry.Hears tokens verdict)
    (hakin : List.Forall₂ (Token.Akin Lexicon.synonyms) tokens others) :
    entry.Hears others verdict := by
  have hfiller {front other : List Token}
      (hfront : Derives grammar.table entry.filler (front.map Token.kind))
      (hother : List.Forall₂ (Token.Akin Lexicon.synonyms) front other) :
      Derives grammar.table entry.filler (other.map Token.kind) := by
    refine Exchange.ofSynonyms.derives hfront ?_ ?_ (Token.akin_kinds hother) <;>
      cases entry <;> rfl
  have hend {closing : Token} {other : List Token} (hclosing : closing.kind = Token.endLabel)
      (hother : List.Forall₂ (Token.Akin Lexicon.synonyms) [closing] other) :
      ∃ last, other = [last] ∧ last.kind = Token.endLabel := by
    have hkinds := Token.kinds_eq hother (by rw [List.forall_mem_singleton, hclosing]; decide)
    rw [List.map_singleton, hclosing] at hkinds
    exact List.map_eq_singleton_iff.mp hkinds
  cases h with
  | silence hclosing =>
      obtain ⟨last, rfl, hlast⟩ := hend hclosing hakin
      exact .silence hlast
  | @turn _ phrase _ target hfront hphrase hclosing =>
      obtain ⟨front, core, rfl, hfront', hcore⟩ := exists_append_of_forall₂ hakin
      obtain ⟨phrase', _, rfl, hphrase', hclose⟩ := exists_append_of_forall₂ hcore
      obtain ⟨last, rfl, hlast⟩ := hend hclosing hclose
      have hstay : ∀ token ∈ phrase, token.kind ∉ Lexicon.synonyms.flatten := by
        rw [← List.forall_mem_map (f := Token.kind) (P := (· ∉ Lexicon.synonyms.flatten)), hphrase]
        cases target <;> decide
      exact .turn (hfiller hfront hfront') ((Token.kinds_eq hphrase' hstay).trans hphrase) hlast
  | chain hfront hbody hclosing =>
      obtain ⟨front, core, rfl, hfront', hcore⟩ := exists_append_of_forall₂ hakin
      obtain ⟨body, _, rfl, hbody', hclose⟩ := exists_append_of_forall₂ hcore
      obtain ⟨last, rfl, hlast⟩ := hend hclosing hclose
      exact .chain (hfiller hfront hfront') (Exchange.ofSynonyms.phrase hbody rfl hbody') hlast

end Entry

namespace Parser

variable {parser : Parser} {rule : Rule} {outcome : ParseOutcome}

theorem heard_synonyms (h : (parser.heard tokens).1 = .ok outcome)
    (hakin : List.Forall₂ (Token.Akin Lexicon.synonyms) tokens others) :
    ∃ other, (parser.heard others).1 = .ok other ∧ outcome.action = other.action ∧
      (parser.heard others).2.session = (parser.heard tokens).2.session := by
  obtain ⟨verdict, hhears, hlength, haction, hsession⟩ := exists_hears_of_heard h
  obtain ⟨other, hother, haction', hsession'⟩ :=
    heard_of_hears (hakin.length_eq ▸ hlength) (hhears.synonyms hakin)
  exact ⟨other, hother, haction.trans haction'.symm, hsession'.trans hsession.symm⟩

/-- An utterance has the answer that it has with synonyms for its words. -/
theorem heard_answeredAlike (parser : Parser)
    (hakin : List.Forall₂ (Token.Akin Lexicon.synonyms) tokens others) :
    AnsweredAlike parser.entry.rule tokens others
        (fun outcome other => outcome.action = other.action)
        (parser.heard tokens).1 (parser.heard others).1 ∧
      (parser.heard others).2.session = (parser.heard tokens).2.session := by
  have hback {outcome : ParseOutcome} (h : (parser.heard others).1 = .ok outcome) :
      ∃ other, (parser.heard tokens).1 = .ok other := by
    obtain ⟨other, hother, -⟩ := heard_synonyms h (Token.akin_symm hakin)
    exact ⟨other, hother⟩
  constructor
  · refine .of_accepted Exchange.ofSynonyms rfl hakin
      (fun _ => refuses_of_heard_error) (fun _ => refuses_of_heard_error)
      (fun outcome h => ?_) (fun _ => hback)
    obtain ⟨other, hother, haction, -⟩ := heard_synonyms h hakin
    exact ⟨other, hother, haction⟩
  · cases haccepted : (parser.heard tokens).1 with
    | ok outcome =>
        obtain ⟨-, -, -, hsession⟩ := heard_synonyms haccepted hakin
        exact hsession
    | error error =>
        cases hother : (parser.heard others).1 with
        | ok outcome =>
            obtain ⟨other, hother⟩ := hback hother
            rw [haccepted] at hother
            cases hother
        | error error' => rw [session_of_heard_error haccepted, session_of_heard_error hother]

theorem fragment_homophones {journal : Log.Journal} {value : Value} (hrule : rule ∈ rules)
    (h : parser.fragment journal rule tokens = .ok value)
    (hakin : List.Forall₂ (Token.Akin Lexicon.homophones) tokens others) (later : Log.Journal) :
    parser.fragment later rule others = .ok value := by
  obtain ⟨hplain, hinside⟩ := numeral_inside rule hrule
  obtain ⟨hnonempty, hlength, hphrase⟩ := (fragment_eq_ok_iff hplain).mp h
  refine (fragment_eq_ok_iff hplain).mpr
    ⟨?_, hakin.length_eq ▸ hlength, Exchange.ofHomophones.phrase hphrase hinside hakin⟩
  rintro rfl
  exact hnonempty (List.forall₂_nil_right_iff.mp hakin)

/-- A spoken number has the answer that it has with homophones for its words. -/
theorem fragment_answeredAlike (parser : Parser) (hrule : rule ∈ rules)
    (hakin : List.Forall₂ (Token.Akin Lexicon.homophones) tokens others)
    (journal later : Log.Journal) :
    AnsweredAlike rule tokens others
      (fun value other => ∃ number, value = .integer number ∧ other = .integer number)
      (parser.fragment journal rule tokens) (parser.fragment later rule others) := by
  obtain ⟨hplain, hinside⟩ := numeral_inside rule hrule
  refine .of_accepted Exchange.ofHomophones hinside hakin (fun _ => refuses_of_fragment_error)
    (fun _ => refuses_of_fragment_error) (fun value h => ?_)
    (fun value h => ⟨value, fragment_homophones hrule h (Token.akin_symm hakin) journal⟩)
  obtain ⟨-, -, hphrase⟩ := (fragment_eq_ok_iff hplain).mp h
  obtain ⟨size, -, rfl⟩ := (says_numeral hrule).mp hphrase
  exact ⟨_, fragment_homophones hrule h hakin later, _, rfl, rfl⟩

end Parser

/-- Synonyms are interchangeable. An utterance with synonyms for any of its words is
accepted if it is accepted, with the same action, or rejected at the same place,
and the session is the same after it, whatever the entry point and the session
before it. And a spoken number with homophones for any of its words is accepted
if it is accepted, with the same value, or rejected at the same place. -/
theorem synonyms_interchangeable (parser : Parser) (journal later : Log.Journal) :
    (∀ tokens others : List Token,
      List.Forall₂ (Token.Akin Lexicon.synonyms) tokens others →
      let reply := ((parser.parse tokens).run journal).1
      let reply' := ((parser.parse others).run later).1
      AnsweredAlike parser.entry.rule tokens others
        (fun outcome other => outcome.action = other.action) reply.1 reply'.1 ∧
      reply'.2.session = reply.2.session) ∧
    ∀ rule ∈ rules, ∀ tokens others : List Token,
      List.Forall₂ (Token.Akin Lexicon.homophones) tokens others →
      AnsweredAlike rule tokens others
        (fun value other => ∃ number, value = .integer number ∧ other = .integer number)
        (parser.fragment journal rule tokens) (parser.fragment later rule others) := by
  refine ⟨fun tokens others hakin => ?_, fun rule hrule tokens others hakin => ?_⟩
  · simp only [Parser.parse_fst]
    exact parser.heard_answeredAlike hakin
  · exact parser.fragment_answeredAlike hrule hakin journal later

/-- A letter while a key is held, a character and a number, each in other words. -/
theorem alternative_ergo_dash_as_alt_echo_minus :
    let tokens : List Token := [⟨"alt", 0, none⟩, ⟨"echo", 1, none⟩, ⟨"minus", 2, none⟩, .closing 3]
    let others : List Token :=
      [⟨"alternative", 0, none⟩, ⟨"ergo", 1, none⟩, ⟨"dash", 2, none⟩, .closing 3]
    let number : List Token := [⟨"two", 0, none⟩, ⟨"hundred", 1, none⟩, ⟨"four", 2, none⟩]
    let number' : List Token := [⟨"to", 0, none⟩, ⟨"hundred", 1, none⟩, ⟨"for", 2, none⟩]
    let parser : Parser := { entry := .strict }
    List.Forall₂ (Token.Akin Lexicon.synonyms) tokens others ∧
    List.Forall₂ (Token.Akin Lexicon.homophones) number number' ∧
    (∃ outcome other, ((parser.parse tokens).run {}).1.1 = .ok outcome ∧
      ((parser.parse others).run {}).1.1 = .ok other ∧
      outcome.action = .chain [.hold [.alt] (.char 'e'), .key "minus"] ∧
      other.action = .chain [.hold [.alt] (.char 'e'), .key "minus"]) ∧
    parser.fragment {} .group number = .ok (.integer 204) ∧
    parser.fragment {} .group number' = .ok (.integer 204) := by
  intro tokens others number number' parser
  have htokens : List.Forall₂ (Token.Akin Lexicon.synonyms) tokens others :=
    .cons ⟨by decide, rfl⟩ (.cons ⟨by decide, rfl⟩ (.cons ⟨by decide, rfl⟩
      (.cons ⟨by decide, rfl⟩ .nil)))
  have hnumbers : List.Forall₂ (Token.Akin Lexicon.homophones) number number' :=
    .cons ⟨by decide, rfl⟩ (.cons ⟨by decide, rfl⟩ (.cons ⟨by decide, rfl⟩ .nil))
  have hletter : Says .letter [tokens[1]] (.node (.char 'e')) :=
    says_letter.mpr ⟨_, 'e', rfl, by decide, rfl⟩
  have hheld : Says .command [tokens[0], tokens[1]] (.node (.hold [.alt] (.char 'e'))) :=
    (says_command.mpr ⟨.letter, by decide, hletter⟩).under (by decide)
  have hkey : Says .character [tokens[2]] (.node (.key "minus")) :=
    says_character.mpr ⟨(["minus"], "minus"), by decide, rfl, rfl⟩
  have hbody := hheld.chain_cons (.chain_single (by decide) hkey)
  have hawake : parser.session = .awake := rfl
  obtain ⟨outcome, houtcome, haction⟩ :=
    Parser.heard_commands hawake hbody (show (Token.closing 3).kind = _ from rfl) (by decide)
  have hnumber : parser.fragment {} .group number = .ok (.integer 204) :=
    (Parser.fragment_eq_ok_iff rfl).mpr ⟨List.cons_ne_nil _ _, by decide,
      says_group_of_spell (show 204 < 1000 by decide) (by decide)⟩
  obtain ⟨hutterances, hfragments⟩ := synonyms_interchangeable parser {} {}
  obtain ⟨hreply, -⟩ := hutterances tokens others htokens
  have hfirst : ((parser.parse tokens).run {}).1.1 = .ok outcome := by
    rw [Parser.parse_fst]
    exact houtcome
  rw [hfirst] at hreply
  obtain ⟨other, hother, hsame⟩ := hreply.exists_ok
  have hspoken := hfragments .group (by decide) number number' hnumbers
  rw [hnumber] at hspoken
  obtain ⟨value, hvalue, _, hinteger, rfl⟩ := hspoken.exists_ok
  cases hinteger
  exact ⟨htokens, hnumbers, ⟨outcome, other, hfirst, hother, haction, hsame ▸ haction⟩,
    hnumber, hvalue⟩

end SpokenKeys
