import ClauseDiscovery.Text.Blank
import Mathlib.Data.List.DropRight
import Mathlib.Data.List.TakeWhile

/-! Texts, their pieces and what is on a line. A text is its pieces with line feeds between them,
in one way only; a line is a bare word, or nothing, with blanks around it. The carriage return
before a line feed is a blank, so as to what is on them lines and pieces agree. -/
namespace ClauseDiscovery
namespace Text

/-- The text is made of the pieces, which are parted by line feeds. -/
structure Splits (cs : List Char) (ls : List (List Char)) : Prop where
  joined : cs = ['\n'].intercalate ls
  unbroken : ∀ l ∈ ls, '\n' ∉ l

def AllBlank (cs : List Char) : Prop := ∀ c ∈ cs, isBlank c

structure Bare (w : List Char) : Prop where
  head : ∀ c, w.head? = some c → isBlank c = false
  last : ∀ c, w.getLast? = some c → isBlank c = false

variable {cs before after l w : List Char} {ls : List (List Char)} {c : Char}

theorem modifyHead_append {ls ms : List (List Char)} {f : List Char → List Char} (h : ls ≠ []) :
    (ls ++ ms).modifyHead f = ls.modifyHead f ++ ms := by
  obtain ⟨l,ls,rfl⟩ := List.exists_cons_of_ne_nil h
  rfl

/-- A line feed parts the pieces before it from those after it. -/
theorem pieces_append_feed (as bs : List Char) :
    pieces (as ++ '\n' :: bs) = pieces as ++ pieces bs := by
  induction as with
  | nil => rfl
  | cons a as ih =>
    by_cases ha : a = '\n'
    · simp [ha,ih]
    · rw [List.cons_append,pieces_cons ha,pieces_cons ha,ih,
        modifyHead_append (pieces_ne_nil as)]

theorem pieces_of_notMem (h : '\n' ∉ l) : pieces l = [l] := by
  induction l with
  | nil => rfl
  | cons c l ih =>
    simp only [List.mem_cons,not_or] at h
    rw [pieces_cons (Ne.symm h.1),ih h.2]
    rfl

theorem splits_pieces (cs : List Char) : Splits cs (pieces cs) := by
  induction cs with
  | nil => exact ⟨rfl,by simp⟩
  | cons c cs ih =>
    obtain ⟨l,ls,hl⟩ := List.exists_cons_of_ne_nil (pieces_ne_nil cs)
    obtain ⟨hj,hu⟩ := ih
    rw [hl] at hj hu
    by_cases hc : c = '\n'
    · subst hc
      rw [pieces_feed,hl]
      refine ⟨?_,by simpa using hu⟩
      rw [List.intercalate_cons_cons,← hj]
      rfl
    · rw [pieces_cons hc,hl,List.modifyHead_cons]
      refine ⟨?_,by simpa [Ne.symm hc] using hu⟩
      rw [hj]
      cases ls with
      | nil => simp
      | cons m ms => simp [List.intercalate_cons_cons]

/-- The pieces of a text are the only ones, but for a text without any characters. -/
theorem Splits.pieces_eq (h : Splits cs ls) (hne : ls ≠ []) : pieces cs = ls := by
  rw [h.joined]
  have hu := h.unbroken
  clear h
  induction ls with
  | nil => exact absurd rfl hne
  | cons l ls ih =>
    have hl : '\n' ∉ l := hu l (by simp)
    cases ls with
    | nil => simpa using pieces_of_notMem hl
    | cons m ms =>
      have hrest := ih (by simp) fun k hk => hu k (List.mem_cons_of_mem _ hk)
      rw [List.intercalate_cons_cons,List.append_assoc,List.singleton_append,pieces_append_feed,
        pieces_of_notMem hl,hrest,List.singleton_append]

theorem allBlank_nil : AllBlank [] := by simp [AllBlank]

theorem AllBlank.append (h : AllBlank before) (h' : AllBlank after) :
    AllBlank (before ++ after) := by
  intro c hc
  rcases List.mem_append.mp hc with hc | hc
  · exact h c hc
  · exact h' c hc

theorem bare_nil : Bare [] := ⟨by simp,by simp⟩

theorem Bare.reverse (h : Bare w) : Bare w.reverse :=
  ⟨by simpa using h.last,by simpa using h.head⟩

theorem Bare.dropWhile_append (h : Bare w) (hne : w ≠ []) (cs : List Char) :
    (w ++ cs).dropWhile isBlank = w ++ cs := by
  obtain ⟨c,w,rfl⟩ := List.exists_cons_of_ne_nil hne
  simp [h.head c rfl]

theorem trim_padded (hb : AllBlank before) (ha : AllBlank after) (hw : Bare w) :
    trim (before ++ w ++ after) = w := by
  have ha' : AllBlank after.reverse := fun c hc => ha c (List.mem_reverse.mp hc)
  unfold trim
  rw [List.append_assoc,List.dropWhile_append_of_pos hb]
  by_cases hne : w = []
  · subst hne
    rw [List.nil_append,List.dropWhile_eq_nil_iff.2 ha]
    rfl
  · have hrev := hw.reverse.dropWhile_append (by simpa using hne) []
    rw [hw.dropWhile_append hne,List.reverse_append,List.dropWhile_append_of_pos ha']
    rw [List.append_nil] at hrev
    rw [hrev,List.reverse_reverse]

theorem trim_of_allBlank (h : AllBlank l) : trim l = [] := by
  simpa using trim_padded h allBlank_nil bare_nil

theorem trim_eq_rdropWhile (l : List Char) :
    trim l = (l.dropWhile isBlank).rdropWhile isBlank := rfl

theorem bare_trim (l : List Char) : Bare (trim l) := by
  rw [trim_eq_rdropWhile]
  constructor
  · intro c hc
    have hhead : (l.dropWhile isBlank).head? = some c := by
      obtain ⟨s,hs⟩ := List.rdropWhile_prefix isBlank (l.dropWhile isBlank)
      rw [← hs,List.head?_append,hc]
      rfl
    have hnot := List.head?_dropWhile_not isBlank l
    rwa [hhead] at hnot
  · intro c hc
    have hne : (l.dropWhile isBlank).rdropWhile isBlank ≠ [] := by
      rintro h
      simp [h] at hc
    rw [← List.getLast_of_getLast?_eq_some hc]
    simpa using List.rdropWhile_last_not isBlank (l.dropWhile isBlank) hne

theorem exists_padded (l : List Char) :
    ∃ before after, AllBlank before ∧ AllBlank after ∧ l = before ++ trim l ++ after := by
  let rest := l.dropWhile isBlank
  refine ⟨l.takeWhile isBlank,rest.rtakeWhile isBlank,?_,?_,?_⟩
  · exact fun c hc => List.mem_takeWhile_imp hc
  · exact fun c hc => List.mem_rtakeWhile_imp hc
  · rw [List.append_assoc,trim_eq_rdropWhile,List.rdropWhile_append_rtakeWhile]
    exact List.takeWhile_append_dropWhile.symm

theorem trim_dropReturn (l : List Char) : trim (dropReturn l) = trim l := by
  unfold dropReturn
  split
  · rename_i hlast
    have hl : l.dropLast ++ ['\r'] = l := List.dropLast_append_getLast? _ hlast
    obtain ⟨before,after,hb,ha,he⟩ := exists_padded l.dropLast
    have hr : AllBlank (after ++ ['\r']) := ha.append (by simp [AllBlank]; decide)
    have htrim := trim_padded hb hr (bare_trim l.dropLast)
    rw [← List.append_assoc,← he,hl] at htrim
    exact htrim.symm
  · rfl

/-- What is on the lines of a text, blank ones left out, is what is on its pieces. -/
theorem filter_trim_lines (cs : List Char) :
    ((lines cs).map trim).filter (!·.isEmpty) = ((pieces cs).map trim).filter (!·.isEmpty) := by
  have hp : (pieces cs).dropLast ++ [(pieces cs).getLast (pieces_ne_nil cs)] = pieces cs :=
    List.dropLast_concat_getLast _
  have hlast : (pieces cs).getLast? = some ((pieces cs).getLast (pieces_ne_nil cs)) :=
    List.getLast?_eq_some_getLast _
  rw [← hp]
  unfold lines
  rw [hlast]
  simp only [List.map_append,List.filter_append,List.map_map]
  congr 1
  · congr 2
    exact funext trim_dropReturn
  · by_cases he : (pieces cs).getLast (pieces_ne_nil cs) = [] <;> simp [he]

end Text
end ClauseDiscovery
