import Flpdf.Json.Completeness

/-!
# The JSON parser accepts its grammar

A token is dispatched without touching the input, and every turn but the last
takes a byte. So the fuel of `parse` is enough, and its result says whether the
input is a document.
-/

namespace Flpdf.Json

namespace Parser

variable {p p' q : Parser} {fuel fuel' : ℕ} {st : LexState}
  {stack : List StackEntry} {w : Json} {r r' : Except Bytes Json}

/-! ## The lexer of a turn -/

/-- Only the parser's own fields have changed. -/
def Keeps (p : Parser) (outcome : Except Bytes Parser) : Prop :=
  ∀ p', outcome = .ok p' → p'.lexer = p.lexer ∧ p'.rest = p.rest

theorem Keeps.ok (hlexer : p'.lexer = p.lexer) (hrest : p'.rest = p.rest) : Keeps p (.ok p') := by
  rintro _ ⟨⟩
  exact ⟨hlexer, hrest⟩

theorem Keeps.error {e : Bytes} : Keeps p (.error e) := by
  intro p' h
  cases h

theorem Keeps.map {α : Type} {f : α → Parser} {outcome : Except Bytes α}
    (h : ∀ a, (f a).lexer = p.lexer ∧ (f a).rest = p.rest) : Keeps p (outcome.map f) := by
  cases outcome with
  | error e => exact .error
  | ok a => exact .ok (h a).1 (h a).2

theorem checkKey_keeps : Keeps p p.checkKey := by
  unfold checkKey
  cases p.stack with
  | nil => exact .ok rfl rfl
  | cons entry stack =>
    dsimp only
    split_ifs
    · exact .error
    · exact .ok rfl rfl

theorem afterValue_keeps : Keeps p p.afterValue := by
  unfold afterValue
  cases p.parseState with
  | dictionaryAfterColon =>
    dsimp only
    intro p' h
    cases hcheck : p.checkKey with
    | error e =>
      rw [hcheck] at h
      cases h
    | ok q =>
      rw [hcheck] at h
      cases h
      exact checkKey_keeps q hcheck
  | arrayBegin | arrayAfterComma | top | done => exact .ok rfl rfl
  | dictionaryBegin | dictionaryAfterComma | dictionaryAfterKey | dictionaryAfterItem
  | arrayAfterItem => exact .error

theorem openContainer_keeps : Keeps p (p.openContainer w) := by
  unfold openContainer
  dsimp only
  by_cases hdepth : (⟨p.parseState, w, [], p.dictKey⟩ :: p.stack : List StackEntry).length > 500
  · rw [if_pos hdepth]
    exact .error
  · rw [if_neg hdepth]
    exact .ok rfl rfl

theorem placeValue_keeps : Keeps p (p.placeValue w) := by
  unfold placeValue
  cases hafter : p.afterValue with
  | error e => exact .error
  | ok q =>
    obtain ⟨hlexer, hrest⟩ := afterValue_keeps q hafter
    dsimp only
    split_ifs
    · intro p' h
      obtain ⟨hlexer', hrest'⟩ := openContainer_keeps p' h
      exact ⟨hlexer'.trans hlexer, hrest'.trans hrest⟩
    · exact .ok hlexer hrest
    · exact .map fun _ => ⟨hlexer, hrest⟩

theorem closeContainer_keeps : Keeps p p.closeContainer := by
  unfold closeContainer
  cases p.stack with
  | nil => exact .ok rfl rfl
  | cons entry stack =>
    dsimp only
    split_ifs
    · exact .ok rfl rfl
    · exact .map fun _ => ⟨rfl, rfl⟩

theorem handleComma_keeps : Keeps p p.handleComma := by
  unfold handleComma
  cases p.parseState with
  | dictionaryAfterItem | arrayAfterItem => exact .ok rfl rfl
  | _ => exact .error

theorem dispatch_keeps : Keeps p (p.dispatch st) := by
  cases st with
  | beginDictionary | beginArray | number => exact placeValue_keeps
  | colon =>
    rw [dispatch, handleColon]
    split_ifs
    · exact .ok rfl rfl
    · exact .error
  | comma => exact handleComma_keeps
  | endArray =>
    rw [dispatch, handleEndArray]
    split_ifs
    · exact closeContainer_keeps
    · exact .error
  | endDictionary =>
    rw [dispatch, handleEndDictionary]
    split_ifs
    · exact closeContainer_keeps
    · exact .error
  | alpha =>
    rw [dispatch, handleKeyword]
    split_ifs
    · exact placeValue_keeps
    · exact placeValue_keeps
    · exact placeValue_keeps
    · exact .error
  | afterString =>
    rw [dispatch, handleString]
    split_ifs
    · exact .ok rfl rfl
    · exact placeValue_keeps
  | _ => exact .error

/-! ## Enough fuel -/

/-- A turn goes back to the top, and takes a byte or reaches the end. -/
theorem turn_progress (hstate : p.lexer.state = .top) (hdone : p.lexer.done = false)
    (h : p.turn = .ok p') :
    p'.lexer.state = .top ∧ (p'.lexer.done = true ∨ p'.rest.length < p.rest.length) := by
  unfold turn at h
  cases htoken : p.lexer.getToken p.rest with
  | error e =>
    rw [htoken] at h
    cases h
  | ok read =>
    obtain ⟨l, rest'⟩ := read
    rw [htoken] at h
    dsimp only at h
    unfold handleToken at h
    dsimp only at h
    by_cases htop : l.state = .top
    · rw [if_pos htop] at h
      cases h
      refine ⟨htop, ?_⟩
      rcases Lexer.getToken_cases hstate hdone htoken with ⟨_, _, _, hl⟩ | hpartial |
        ⟨pre, core, _, _, hreads⟩
      · exact .inl hl
      · rw [htop] at hpartial
        cases hpartial
      · exact absurd htop hreads.text.ne_top
    · rw [if_neg htop] at h
      split_ifs at h
      obtain ⟨hlexer, hrest⟩ := dispatch_keeps _ h
      rw [hlexer, hrest]
      refine ⟨rfl, ?_⟩
      rcases Lexer.getToken_cases hstate hdone htoken with ⟨_, _, hl, _⟩ | hpartial |
        ⟨pre, core, heq, _, hreads⟩
      · exact absurd hl htop
      · -- A string without its end is no token.
        exfalso
        cases hl : l.state <;> rw [hl] at hpartial <;> try cases hpartial
        all_goals
          rw [hl] at h
          cases h
      · right
        have hcore := hreads.text.length_pos
        have hlength := congrArg List.length heq
        simp only [List.length_append] at hlength
        dsimp only
        omega

theorem parseFrom_isSome (hstate : p.lexer.state = .top)
    (hfuel : (if p.lexer.done then 0 else p.rest.length + 1) < fuel) :
    (parseFrom fuel p).isSome := by
  induction fuel generalizing p with
  | zero => omega
  | succ fuel ih =>
    rw [parseFrom]
    cases hdone : p.lexer.done with
    | true => rfl
    | false =>
      rw [if_neg (by decide)]
      cases hturn : p.turn with
      | error e => rfl
      | ok p' =>
        obtain ⟨hstate', hprogress⟩ := turn_progress hstate hdone hturn
        apply ih hstate'
        rw [hdone, if_neg (by decide)] at hfuel
        rcases hprogress with hdone' | hless
        · rw [if_pos hdone']
          omega
        · split_ifs <;> omega

/-- More fuel does not change the result. -/
theorem parseFrom_add (h : parseFrom fuel p = some r) (k : ℕ) :
    parseFrom (fuel + k) p = some r := by
  induction fuel generalizing p with
  | zero => cases h
  | succ fuel ih =>
    rw [Nat.succ_add, parseFrom]
    rw [parseFrom] at h
    by_cases hdone : p.lexer.done = true
    · rw [if_pos hdone] at h ⊢
      exact h
    · rw [if_neg hdone] at h ⊢
      cases hturn : p.turn with
      | error e =>
        rw [hturn] at h
        exact h
      | ok p' =>
        rw [hturn] at h
        exact ih h

theorem parseFrom_unique (h : parseFrom fuel p = some r) (h' : parseFrom fuel' p = some r') :
    r = r' := by
  have hadd := parseFrom_add h fuel'
  rw [Nat.add_comm, parseFrom_add h' fuel] at hadd
  exact (Option.some.inj hadd).symm

end Parser

/-! ## Documents -/

theorem parse_isSome (input : Bytes) : (parse input).isSome := by
  apply Parser.parseFrom_isSome rfl
  simp

theorem parse_ok_iff_accepts {input : Bytes} {v : Json} :
    parse input = some (.ok v) ↔ Parser.Accepts { rest := input } v := by
  constructor
  · intro h
    exact ⟨_, h⟩
  · rintro ⟨fuel, h⟩
    obtain ⟨r, hr⟩ := Option.isSome_iff_exists.mp (parse_isSome input)
    obtain rfl := Parser.parseFrom_unique h hr
    exact hr

/-- `parse` always comes to a result, and accepts the documents of the grammar
with their trees and nothing else. -/
theorem parse_accepts_documents (input : Bytes) :
    (parse input).isSome ∧ ∀ v, parse input = some (.ok v) ↔ Document input v := by
  refine ⟨parse_isSome input, fun v => ?_⟩
  rw [parse_ok_iff_accepts]
  exact ⟨Parser.document_of_accepts, Parser.accepts_of_document⟩

end Flpdf.Json
