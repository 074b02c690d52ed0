import ClauseDiscovery.Oracle.Verdicts
import ClauseDiscovery.Proofs.Text.Lines

/-! Printed verdicts. A text says verdicts when each of its lines is blank or has one word on it,
with blanks around it. Only what is on the lines counts, so texts can be put together and padded
without a verdict being lost, added or moved. -/
namespace ClauseDiscovery
namespace Verdicts

open Text

/-- The lines say the verdicts in their order: each is blank or has the next word on it. -/
inductive Spells : List (List Char) → List Bool → Prop
  | nil : Spells [] []
  | blank {l : List Char} {ls : List (List Char)} {vs : List Bool} :
      AllBlank l → Spells ls vs → Spells (l :: ls) vs
  | verdict {before after : List Char} {b : Bool} {ls : List (List Char)} {vs : List Bool} :
      AllBlank before → AllBlank after → Spells ls vs →
        Spells ((before ++ word b ++ after) :: ls) (b :: vs)

/-- The first line with something on it that is no verdict has `w` on it. -/
inductive Misspells : List (List Char) → List Char → Prop
  | here {before w after : List Char} {ls : List (List Char)} :
      AllBlank before → AllBlank after → Bare w → w ≠ [] → (∀ b, w ≠ word b) →
        Misspells ((before ++ w ++ after) :: ls) w
  | blank {l w : List Char} {ls : List (List Char)} :
      AllBlank l → Misspells ls w → Misspells (l :: ls) w
  | verdict {before after w : List Char} {b : Bool} {ls : List (List Char)} :
      AllBlank before → AllBlank after → Misspells ls w →
        Misspells ((before ++ word b ++ after) :: ls) w

structure Padding where
  chars : List Char
  allBlank : AllBlank chars
  unbroken : '\n' ∉ chars

/-- A printed line, with a verdict on it or blank. -/
structure Line where
  before : Padding
  verdict? : Option Bool
  after : Padding

inductive Ending where
  | feed
  | returnFeed

def Ending.chars : Ending → List Char
  | feed => ['\n']
  | returnFeed => ['\r', '\n']

def Line.word (l : Line) : List Char := l.verdict?.elim [] Verdicts.word

def Line.chars (l : Line) : List Char := l.before.chars ++ l.word ++ l.after.chars

def print (ls : List (Line × Ending)) (last : Line) : String :=
  .ofList (ls.flatMap (fun l => l.1.chars ++ l.2.chars) ++ last.chars)

def printed (ls : List (Line × Ending)) (last : Line) : List Bool :=
  ls.filterMap (·.1.verdict?) ++ last.verdict?.toList

variable {cs before after l w : List Char} {ls ws : List (List Char)} {vs : List Bool}

theorem word_ne_nil (b : Bool) : word b ≠ [] := by cases b <;> decide

theorem bare_word (b : Bool) : Bare (word b) := by
  constructor <;> cases b <;> simp [word,yes,no,isBlank,blanks]

theorem feed_notMem_word (b : Bool) : '\n' ∉ word b := by cases b <;> decide

def content (ls : List (List Char)) : List (List Char) := (ls.map trim).filter (!·.isEmpty)

@[simp] theorem content_append (ls ms : List (List Char)) :
    content (ls ++ ms) = content ls ++ content ms := by
  simp [content]

theorem content_cons_blank (h : AllBlank l) (ls : List (List Char)) :
    content (l :: ls) = content ls := by
  simp [content,trim_of_allBlank h]

theorem content_cons_padded (hb : AllBlank before) (ha : AllBlank after) (hw : Bare w)
    (hne : w ≠ []) (ls : List (List Char)) :
    content ((before ++ w ++ after) :: ls) = w :: content ls := by
  unfold content
  rw [List.map_cons,trim_padded hb ha hw,List.filter_cons_of_pos (by simpa using hne)]

theorem words_eq_content (cs : List Char) : words cs = content (pieces cs) := filter_trim_lines cs

theorem words_append_feed (as bs : List Char) :
    words (as ++ '\n' :: bs) = words as ++ words bs := by
  simp only [words_eq_content,pieces_append_feed,content_append]

theorem words_of_splits (h : Splits cs ls) : words cs = content ls := by
  rw [words_eq_content]
  by_cases hne : ls = []
  · subst hne
    have hcs : cs = [] := h.joined
    rw [hcs]
    rfl
  · rw [h.pieces_eq hne]

theorem content_of_spells (h : Spells ls vs) : content ls = vs.map word := by
  induction h with
  | nil => rfl
  | blank hl _ ih => rw [content_cons_blank hl,ih]
  | verdict hb ha _ ih =>
    rw [content_cons_padded hb ha (bare_word _) (word_ne_nil _),ih,List.map_cons]

theorem content_of_misspells (h : Misspells ls w) :
    (∀ b, w ≠ word b) ∧
      ∃ (vs : List Bool) (ws : List (List Char)), content ls = vs.map word ++ w :: ws := by
  induction h with
  | here hb ha hw hne hno => exact ⟨hno,[],_,content_cons_padded hb ha hw hne _⟩
  | blank hl _ ih => rwa [content_cons_blank hl]
  | @verdict _ _ _ b _ hb ha _ ih =>
    obtain ⟨hno,vs,ws,hc⟩ := ih
    refine ⟨hno,b :: vs,ws,?_⟩
    rw [content_cons_padded hb ha (bare_word _) (word_ne_nil _),hc]
    rfl

theorem spells_or_misspells (ls : List (List Char)) :
    (∃ vs, Spells ls vs) ∨ ∃ w, Misspells ls w := by
  induction ls with
  | nil => exact Or.inl ⟨[],.nil⟩
  | cons l ls ih =>
    obtain ⟨before,after,hb,ha,hl⟩ := exists_padded l
    by_cases hne : trim l = []
    · have hblank : AllBlank l := by
        rw [hl,hne,List.append_nil]
        exact hb.append ha
      rcases ih with ⟨vs,hvs⟩ | ⟨w,hw⟩
      · exact Or.inl ⟨vs,.blank hblank hvs⟩
      · exact Or.inr ⟨w,.blank hblank hw⟩
    · by_cases hword : ∃ b, trim l = word b
      · obtain ⟨b,hword⟩ := hword
        rw [hl,hword]
        rcases ih with ⟨vs,hvs⟩ | ⟨w,hw⟩
        · exact Or.inl ⟨b :: vs,.verdict hb ha hvs⟩
        · exact Or.inr ⟨w,.verdict hb ha hw⟩
      · rw [hl]
        exact Or.inr ⟨trim l,.here hb ha (bare_trim l) hne (not_exists.mp hword)⟩

/-- The verdicts of the words, or the first of them that is none. -/
def judge (ws : List (List Char)) : Except OracleError (List Bool) := ws.mapM ofWord

theorem parse_eq_judge (s : String) : parse s = judge (words s.toList) := rfl

theorem judge_append (ws us : List (List Char)) :
    judge (ws ++ us) = (judge ws).bind fun vs => (judge us).map (vs ++ ·) := by
  unfold judge
  rw [List.mapM_append]
  cases ws.mapM ofWord with
  | error e => rfl
  | ok vs => cases us.mapM ofWord <;> rfl

@[simp] theorem judge_map_word (vs : List Bool) : judge (vs.map word) = .ok vs := by
  induction vs with
  | nil => rfl
  | cons b vs ih =>
    unfold judge at ih ⊢
    rw [List.map_cons,List.mapM_cons,ofWord_word,ih]
    rfl

theorem judge_of_other (hw : ∀ b, w ≠ word b) (vs : List Bool) (ws : List (List Char)) :
    judge (vs.map word ++ w :: ws) = .error (.malformedOutput (String.ofList w)) := by
  have hword : ofWord w = .error (.malformedOutput (String.ofList w)) := by
    have hyes : w ≠ yes := hw true
    have hno : w ≠ no := hw false
    simp [ofWord,hyes,hno]
  have hcons : judge (w :: ws) = .error (.malformedOutput (String.ofList w)) := by
    unfold judge
    rw [List.mapM_cons,hword]
    rfl
  rw [judge_append,judge_map_word,hcons]
  rfl

theorem judge_of_spells (h : Spells ls vs) : judge (content ls) = .ok vs := by
  rw [content_of_spells h,judge_map_word]

theorem judge_of_misspells (h : Misspells ls w) :
    judge (content ls) = .error (.malformedOutput (String.ofList w)) := by
  obtain ⟨hno,vs,ws,hc⟩ := content_of_misspells h
  rw [hc,judge_of_other hno]

theorem judge_eq_ok_iff : judge (content ls) = .ok vs ↔ Spells ls vs := by
  refine ⟨fun h => ?_,judge_of_spells⟩
  rcases spells_or_misspells ls with ⟨us,hus⟩ | ⟨w,hw⟩
  · rw [judge_of_spells hus] at h
    cases h
    exact hus
  · rw [judge_of_misspells hw] at h
    cases h

theorem judge_eq_error_iff {e : OracleError} : judge (content ls) = .error e ↔
    ∃ w, Misspells ls w ∧ e = .malformedOutput (String.ofList w) := by
  constructor
  · intro h
    rcases spells_or_misspells ls with ⟨us,hus⟩ | ⟨w,hw⟩
    · rw [judge_of_spells hus] at h
      cases h
    · rw [judge_of_misspells hw] at h
      cases h
      exact ⟨w,hw,rfl⟩
  · rintro ⟨w,hw,rfl⟩
    exact judge_of_misspells hw

theorem words_of_notMem (h : '\n' ∉ cs) : words cs = content [cs] := by
  rw [words_eq_content,pieces_of_notMem h]

theorem Line.words_chars (l : Line) (p : Padding) :
    words (l.chars ++ p.chars) = l.verdict?.toList.map Verdicts.word := by
  have hafter : AllBlank (l.after.chars ++ p.chars) := l.after.allBlank.append p.allBlank
  have hfeed : '\n' ∉ l.before.chars ++ l.word ++ (l.after.chars ++ p.chars) := by
    have hword : '\n' ∉ l.word := by
      unfold Line.word
      cases l.verdict? with
      | none => simp
      | some b => exact feed_notMem_word b
    simp [l.before.unbroken,l.after.unbroken,p.unbroken,hword]
  unfold Line.chars
  rw [List.append_assoc,words_of_notMem hfeed]
  unfold Line.word
  cases l.verdict? with
  | none =>
    refine content_cons_blank ?_ []
    simpa using l.before.allBlank.append hafter
  | some b => exact content_cons_padded l.before.allBlank hafter (bare_word b) (word_ne_nil b) []

/-- A carriage return belongs to the blanks after the word. -/
theorem Line.words_chars_append (l : Line) (e : Ending) (cs : List Char) :
    words (l.chars ++ e.chars ++ cs) = l.verdict?.toList.map Verdicts.word ++ words cs := by
  cases e with
  | feed =>
    have hline := l.words_chars ⟨[],allBlank_nil,by simp⟩
    rw [List.append_nil] at hline
    rw [← hline,← words_append_feed]
    simp [Ending.chars]
  | returnFeed =>
    have hreturn : AllBlank ['\r'] := by simp [AllBlank,isBlank,blanks]
    have hline := l.words_chars ⟨['\r'],hreturn,by simp⟩
    rw [← hline,← words_append_feed]
    simp [Ending.chars]

theorem words_print (ls : List (Line × Ending)) (last : Line) :
    words (print ls last).toList = (printed ls last).map word := by
  unfold print printed
  rw [String.toList_ofList]
  induction ls with
  | nil => simpa using last.words_chars ⟨[],allBlank_nil,by simp⟩
  | cons l ls ih =>
    rw [List.flatMap_cons,List.append_assoc,Line.words_chars_append,ih]
    cases hl : l.1.verdict? <;> simp [hl]

theorem parse_eq_ok_iff {s : String} :
    parse s = .ok vs ↔ ∃ ls, Splits s.toList ls ∧ Spells ls vs := by
  constructor
  · intro h
    rw [parse_eq_judge,words_eq_content,judge_eq_ok_iff] at h
    exact ⟨_,splits_pieces _,h⟩
  · rintro ⟨ls,hs,h⟩
    rwa [parse_eq_judge,words_of_splits hs,judge_eq_ok_iff]

theorem parse_eq_error_iff {s : String} {e : OracleError} : parse s = .error e ↔
    ∃ ls w, Splits s.toList ls ∧ Misspells ls w ∧ e = .malformedOutput (String.ofList w) := by
  constructor
  · intro h
    rw [parse_eq_judge,words_eq_content,judge_eq_error_iff] at h
    obtain ⟨w,hw,he⟩ := h
    exact ⟨_,w,splits_pieces _,hw,he⟩
  · rintro ⟨ls,w,hs,hw,he⟩
    rw [parse_eq_judge,words_of_splits hs,judge_eq_error_iff]
    exact ⟨w,hw,he⟩

theorem parse_append_feed (a b : String) :
    parse (a ++ "\n" ++ b) = (parse a).bind fun vs => (parse b).map (vs ++ ·) := by
  have htext : (a ++ "\n" ++ b).toList = a.toList ++ '\n' :: b.toList := by simp
  rw [parse_eq_judge,htext,words_append_feed,judge_append]
  rfl

theorem parse_print (ls : List (Line × Ending)) (last : Line) :
    parse (print ls last) = .ok (printed ls last) := by
  rw [parse_eq_judge,words_print,judge_map_word]

/-- A text is read as the verdicts that its lines say, and refused for the first line that says
none. Two texts, one below the other, are read as one after the other; and whatever blanks and
blank lines verdicts are printed with, and however the lines end, they are read back. -/
theorem parse_spec :
    (∀ s vs, parse s = .ok vs ↔ ∃ ls, Splits s.toList ls ∧ Spells ls vs) ∧
    (∀ s e, parse s = .error e ↔
      ∃ ls w, Splits s.toList ls ∧ Misspells ls w ∧ e = .malformedOutput (String.ofList w)) ∧
    (∀ a b, parse (a ++ "\n" ++ b) = (parse a).bind fun vs => (parse b).map (vs ++ ·)) ∧
    ∀ ls last, parse (print ls last) = .ok (printed ls last) :=
  ⟨fun _ _ => parse_eq_ok_iff,fun _ _ => parse_eq_error_iff,parse_append_feed,parse_print⟩

/-- A carriage return ends a line with its feed, or is a blank; the last line has no end. -/
example : parse "YES\r\n\n \r NO\r" = .ok [true,false] := by rfl

end Verdicts
end ClauseDiscovery
