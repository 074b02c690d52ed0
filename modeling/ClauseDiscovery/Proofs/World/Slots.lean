import ClauseDiscovery.World.Interpretation
import ClauseDiscovery.Proofs.FirstOccurrence

/-! Slots and what fills them. The table and the set of a filled list of slots agree with its
entries, so that each step does what noting in the first slot of a key does. Hence after any uses
the keys are those given and then the others, and a key has what it was used with, in the order of
first occurrence. -/
namespace ClauseDiscovery

variable {κ α : Type} [DecidableEq κ] [DecidableEq α]

def noteLast (xs : List α) (x : α) : List α := if x ∈ xs then xs else xs ++ [x]

def noteIn (k : κ) (x : α) : List (κ × List α) → List (κ × List α)
  | [] => [(k,[x])]
  | slot :: slots =>
    if slot.1 = k then (slot.1,noteLast slot.2 x) :: slots else slot :: noteIn k x slots

def fill (ks : List κ) (us : List (κ × α)) : List (κ × List α) :=
  us.foldl (fun slots u => noteIn u.1 u.2 slots) (ks.map (·,[]))

/-- What the key is used with, each once, in the order of first occurrence. -/
def usedWith (us : List (κ × α)) (k : κ) : List α := ((us.filter (·.1 = k)).map Prod.snd).eraseDups

variable {ks : List κ} {us : List (κ × α)} {slots : List (κ × List α)} {k : κ} {x : α} {i : Nat}

theorem usedWith_of_notMem (h : k ∉ us.map Prod.fst) : usedWith us k = [] := by
  have hnone : us.filter (·.1 = k) = [] := by
    rw [List.filter_eq_nil_iff]
    intro u hu
    simp only [decide_eq_true_eq]
    exact fun he => h (List.mem_map.mpr ⟨u,hu,he⟩)
  rw [usedWith,hnone]
  rfl

theorem usedWith_append_singleton (us : List (κ × α)) (u : κ × α) (k : κ) :
    usedWith (us ++ [u]) k = if u.1 = k then noteLast (usedWith us k) u.2 else usedWith us k := by
  unfold usedWith noteLast
  by_cases h : u.1 = k
  · simp [h,eraseDups_append_singleton]
  · simp [h]

theorem mem_noteLast {xs : List α} {y : α} : y ∈ noteLast xs x ↔ y ∈ xs ∨ y = x := by
  unfold noteLast
  split
  · constructor
    · exact Or.inl
    · rintro (h | rfl) <;> assumption
  · simp

theorem slotOf?_noteIn (k' : κ) : slotOf? k' (noteIn k x slots) =
    if k' = k then some (noteLast ((slotOf? k slots).getD []) x) else slotOf? k' slots := by
  unfold slotOf?
  induction slots with
  | nil =>
    by_cases h : k' = k
    · simp [noteIn,noteLast,h]
    · simp [noteIn,h,Ne.symm h]
  | cons slot slots ih =>
    unfold noteIn
    by_cases hs : slot.1 = k
    · by_cases h : k' = k
      · simp [hs,h]
      · simp [hs,h,Ne.symm h]
    · by_cases h : k' = k
      · subst h
        simpa [hs] using ih
      · by_cases hk : slot.1 = k'
        · simp [h,hk]
        · simpa [hs,h,hk] using ih

theorem keys_noteIn : (noteIn k x slots).map Prod.fst =
    if k ∈ slots.map Prod.fst then slots.map Prod.fst else slots.map Prod.fst ++ [k] := by
  induction slots with
  | nil => rfl
  | cons slot slots ih =>
    unfold noteIn
    by_cases hs : slot.1 = k
    · simp [hs]
    · rw [if_neg hs,List.map_cons,ih]
      by_cases hk : k ∈ slots.map Prod.fst <;> simp [hk,Ne.symm hs]

theorem noteIn_of_idxOf? (h : (slots.map Prod.fst).idxOf? k = some i) :
    noteIn k x slots = slots.modify i fun slot => (slot.1,noteLast slot.2 x) := by
  induction slots generalizing i with
  | nil => simp at h
  | cons slot slots ih =>
    rw [List.map_cons,List.idxOf?_cons] at h
    unfold noteIn
    by_cases hs : slot.1 = k
    · obtain rfl : 0 = i := by simpa [hs] using h
      simp [hs]
    · obtain ⟨j,hj,rfl⟩ : ∃ j, (slots.map Prod.fst).idxOf? k = some j ∧ j + 1 = i := by
        simpa [hs] using h
      rw [if_neg hs,ih hj]
      rfl

theorem noteIn_of_notMem (h : k ∉ slots.map Prod.fst) :
    noteIn k x slots = slots ++ [(k,[x])] := by
  induction slots with
  | nil => rfl
  | cons slot slots ih =>
    simp only [List.map_cons,List.mem_cons,not_or] at h
    rw [noteIn,if_neg (Ne.symm h.1),ih h.2]
    rfl

theorem fill_append_singleton (u : κ × α) :
    fill ks (us ++ [u]) = noteIn u.1 u.2 (fill ks us) := by
  simp [fill]

theorem keys_fill : (fill ks us).map Prod.fst =
    ks ++ ((us.map Prod.fst).filter (· ∉ ks)).eraseDups := by
  induction us using List.reverseRecOn with
  | nil => simp [fill,Function.comp_def]
  | append_singleton us u ih =>
    rw [fill_append_singleton,keys_noteIn,ih]
    by_cases hk : u.1 ∈ ks
    · simp [hk]
    · have hfilter : ((us ++ [u]).map Prod.fst).filter (· ∉ ks) =
          (us.map Prod.fst).filter (· ∉ ks) ++ [u.1] := by
        simp [hk]
      rw [hfilter,eraseDups_append_singleton]
      by_cases hu : u.1 ∈ us.map Prod.fst <;> simp_all

theorem slotOf?_empty {β : Type} (k : κ) :
    slotOf? k (ks.map fun l => (l,([] : List β))) = if k ∈ ks then some [] else none := by
  induction ks with
  | nil => rfl
  | cons l ks ih =>
    by_cases h : l = k
    · simp [slotOf?,h]
    · have hrest : slotOf? k ((l,([] : List β)) :: ks.map fun l => (l,[])) =
          slotOf? k (ks.map fun l => (l,([] : List β))) := by
        simp [slotOf?,h]
      rw [List.map_cons,hrest,ih]
      simp [Ne.symm h]

theorem slotOf?_fill (k : κ) : slotOf? k (fill ks us) =
    if k ∈ ks ∨ k ∈ us.map Prod.fst then some (usedWith us k) else none := by
  induction us using List.reverseRecOn with
  | nil =>
    rw [usedWith_of_notMem (by simp)]
    simpa [fill] using slotOf?_empty k
  | append_singleton us u ih =>
    rw [fill_append_singleton,slotOf?_noteIn,usedWith_append_singleton]
    by_cases h : u.1 = k
    · subst h
      have hold : (slotOf? u.1 (fill ks us)).getD [] = usedWith us u.1 := by
        rw [ih]
        split
        · rfl
        · rename_i hno
          exact (usedWith_of_notMem fun hu => hno (Or.inr hu)).symm
      simp [hold]
    · have hkeys : k ∈ (us ++ [u]).map Prod.fst ↔ k ∈ us.map Prod.fst := by simp [Ne.symm h]
      rw [if_neg (Ne.symm h),ih,if_neg h]
      simp only [hkeys]

theorem exists_idxOf? (h : k ∈ ks) : ∃ i, ks.idxOf? k = some i :=
  Option.ne_none_iff_exists'.mp (mt List.idxOf?_eq_none_iff.mp (not_not.mpr h))

theorem idxOf?_append_singleton (ks : List κ) (l k : κ) : (ks ++ [l]).idxOf? k =
    if l = k ∧ k ∉ ks then some ks.length else ks.idxOf? k := by
  have happend : (ks ++ [l]).findIdx? (· == k) =
      (ks.findIdx? (· == k)).or (([l].findIdx? (· == k)).map (· + ks.length)) :=
    List.findIdx?_append
  by_cases hk : k ∈ ks
  · obtain ⟨i,hi⟩ := exists_idxOf? hk
    unfold List.idxOf? at hi ⊢
    simp [happend,hk,hi]
  · have hnone := List.idxOf?_eq_none_iff.mpr hk
    unfold List.idxOf? at hnone ⊢
    rw [happend,hnone]
    by_cases hl : l = k <;> simp [hk,hl]

theorem modify_append_singleton {β : Type} (bs : List β) (b : β) (f : β → β) :
    (bs ++ [b]).modify bs.length f = bs ++ [f b] := by
  induction bs with
  | nil => rfl
  | cons c bs ih => simpa using ih

namespace Slots

variable [Hashable κ] [Hashable α]

/-- The table gives the first place of a key, and the set holds what the slots hold. -/
structure Sound (s : Slots κ α) : Prop where
  place?_eq : ∀ k, s.place? k = (s.entries.map Prod.fst).idxOf? k
  mem_held : ∀ i x, (i,x) ∈ s.held ↔ ∃ slot, s.entries[i]? = some slot ∧ x ∈ slot.2

variable {s : Slots κ α}

theorem firstPlaces_append_singleton (ks : List κ) (l : κ) :
    firstPlaces (ks ++ [l]) = (firstPlaces ks).insertIfNew l ks.length := by
  simp [firstPlaces,List.zipIdx_append]

theorem getElem?_firstPlaces (ks : List κ) (k : κ) : (firstPlaces ks)[k]? = ks.idxOf? k := by
  induction ks using List.reverseRecOn generalizing k with
  | nil => simp [firstPlaces]
  | append_singleton ks l ih =>
    have hmem : l ∈ firstPlaces ks ↔ l ∈ ks := by
      rw [Std.HashMap.mem_iff_isSome_getElem?,ih,Option.isSome_iff_ne_none]
      exact not_iff_comm.mp List.idxOf?_eq_none_iff.symm
    rw [firstPlaces_append_singleton,idxOf?_append_singleton,Std.HashMap.getElem?_insertIfNew,ih]
    by_cases hl : l = k
    · subst hl
      simp only [hmem,beq_self_eq_true,true_and]
    · simp [hl]

theorem sound_ofKeys (ks : List κ) : Sound (ofKeys ks : Slots κ α) where
  place?_eq k := by
    simpa [ofKeys,place?,Function.comp_def] using getElem?_firstPlaces ks k
  mem_held i x := by simp [ofKeys]

theorem Sound.entries_note (h : Sound s) (i : Nat) (x : α) : (s.note i x).entries =
    s.entries.modify i fun slot => (slot.1,noteLast slot.2 x) := by
  unfold Slots.note
  by_cases hx : s.held.contains (i,x)
  · rw [if_pos hx]
    obtain ⟨slot,hslot,hmem⟩ := (h.mem_held i x).mp (Std.HashSet.contains_iff_mem.mp hx)
    apply List.ext_getElem?
    intro j
    rw [List.getElem?_modify]
    by_cases hij : i = j
    · subst hij
      simp [hslot,noteLast,hmem]
    · simp [hij]
  · rw [if_neg hx]
    apply List.ext_getElem?
    intro j
    rw [List.getElem?_modify,List.getElem?_modify]
    by_cases hij : i = j
    · subst hij
      cases hslot : s.entries[i]? with
      | none => rfl
      | some slot =>
        have hmem : x ∉ slot.2 := fun hm =>
          hx (Std.HashSet.contains_iff_mem.mpr ((h.mem_held i x).mpr ⟨slot,hslot,hm⟩))
        simp [noteLast,hmem]
    · simp [hij]

theorem mem_held_note {j : Nat} {y : α} :
    (j,y) ∈ (s.note i x).held ↔ (i = j ∧ x = y) ∨ (j,y) ∈ s.held := by
  unfold Slots.note
  split
  · rename_i hx
    refine ⟨Or.inr,?_⟩
    rintro (⟨rfl,rfl⟩ | hy)
    · exact Std.HashSet.contains_iff_mem.mp hx
    · exact hy
  · simp [Std.HashSet.mem_insert]

theorem keys_note (s : Slots κ α) (i : Nat) (x : α) :
    (s.note i x).entries.map Prod.fst = s.entries.map Prod.fst := by
  unfold Slots.note
  split
  · rfl
  · apply List.ext_getElem?
    intro j
    rw [List.getElem?_map,List.getElem?_map,List.getElem?_modify]
    cases s.entries[j]? with
    | none => rfl
    | some slot => by_cases hij : i = j <;> simp [hij]

theorem Sound.note (h : Sound s) (hi : i < s.entries.length) (x : α) : Sound (s.note i x) where
  place?_eq k := by
    rw [keys_note,← h.place?_eq]
    unfold Slots.note
    split <;> rfl
  mem_held j y := by
    rw [mem_held_note,h.mem_held,h.entries_note,List.getElem?_modify]
    by_cases hij : i = j
    · subst hij
      simp [List.getElem?_eq_getElem hi,mem_noteLast,or_comm,eq_comm]
    · simp [hij]

theorem Sound.notMem_keys (h : Sound s) (hk : s.place? k = none) : k ∉ s.entries.map Prod.fst := by
  rw [← List.idxOf?_eq_none_iff,← h.place?_eq,hk]

theorem Sound.extend (h : Sound s) (hk : s.place? k = none) : Sound (s.extend k) where
  place?_eq l := by
    have hnew := h.notMem_keys hk
    have hplaces : (s.extend k).place? l = if k = l then some s.entries.length else s.place? l := by
      simp [place?,Slots.extend,Std.HashMap.getElem?_insert]
    have hkeys : (s.extend k).entries.map Prod.fst = s.entries.map Prod.fst ++ [k] := by
      simp [Slots.extend]
    rw [hplaces,hkeys,idxOf?_append_singleton,h.place?_eq]
    by_cases hl : k = l
    · subst hl
      simp [hnew]
    · simp [hl]
  mem_held j y := by
    change (j,y) ∈ s.held ↔ _
    rw [h.mem_held]
    by_cases hj : j < s.entries.length
    · simp [Slots.extend,List.getElem?_append_left hj]
    · -- past the old slots there is the new one, which is empty
      simp only [List.getElem?_eq_none (Nat.not_lt.mp hj),reduceCtorEq,false_and,exists_false,
        false_iff,not_exists,not_and]
      intro slot hslot
      rw [Slots.extend,List.getElem?_append_right (Nat.not_lt.mp hj)] at hslot
      obtain rfl : slot = (k,[]) := by simpa using List.mem_of_getElem? hslot
      simp

/-- Each step does what noting in the first slot of the key does. -/
theorem Sound.entries_noteAt (h : Sound s) (k : κ) (x : α) :
    (s.noteAt k x).entries = noteIn k x s.entries := by
  unfold Slots.noteAt
  cases hk : s.place? k with
  | some i =>
    rw [h.place?_eq] at hk
    simp only
    rw [h.entries_note,noteIn_of_idxOf? hk]
  | none =>
    simp only
    rw [(h.extend hk).entries_note,noteIn_of_notMem (h.notMem_keys hk)]
    simp [Slots.extend,modify_append_singleton,noteLast]

theorem Sound.noteAt (h : Sound s) (k : κ) (x : α) : Sound (s.noteAt k x) := by
  unfold Slots.noteAt
  cases hk : s.place? k with
  | some i =>
    refine h.note ?_ x
    rw [h.place?_eq] at hk
    obtain ⟨hi,-⟩ := List.idxOf?_eq_some_iff.mp hk
    simpa using hi
  | none => exact (h.extend hk).note (by simp [Slots.extend]) x

structure Filled (s : Slots κ α) (ks : List κ) (us : List (κ × α)) : Prop where
  sound : Sound s
  entries_eq : s.entries = fill ks us

theorem filled_ofKeys (ks : List κ) : Filled (ofKeys ks : Slots κ α) ks [] :=
  ⟨sound_ofKeys ks,rfl⟩

theorem Filled.noteAt (h : Filled s ks us) (k : κ) (x : α) :
    Filled (s.noteAt k x) ks (us ++ [(k,x)]) where
  sound := h.sound.noteAt k x
  entries_eq := by rw [h.sound.entries_noteAt,h.entries_eq,fill_append_singleton]

theorem Filled.foldl (h : Filled s ks us) (ws : List (κ × α)) :
    Filled (ws.foldl (fun s u => s.noteAt u.1 u.2) s) ks (us ++ ws) := by
  induction ws generalizing s us with
  | nil => simpa using h
  | cons w ws ih =>
    rw [List.append_cons]
    exact ih (h.noteAt w.1 w.2)

end Slots
end ClauseDiscovery
