import FlakeInputs.Proofs.Token.Written
import FlakeInputs.Reference.Version
import Mathlib.Data.List.DropRight

/-!
# How references end

What is left of a text that is trimmed at its end, and which characters a version requirement can
end in.
-/

namespace FlakeInputs

namespace Text

/-- The text ends in a blank. -/
def EndsBlank (t : Text) : Prop :=
  ∃ front c, t = front ++ [c] ∧ FlakeInputs.isBlank c = true

/-- The text ends in a character that no reference is trimmed of. -/
def EndsFirm (t : Text) : Prop :=
  ∃ front c, t = front ++ [c] ∧ FlakeInputs.isBlank c = false ∧ c ≠ '/'

theorem EndsFirm.of_suffix {w t : Text} (h : w.EndsFirm) (hw : w <:+ t) : t.EndsFirm := by
  obtain ⟨front, c, rfl, hc⟩ := h
  obtain ⟨p, rfl⟩ := hw
  exact ⟨p ++ front, c, (List.append_assoc p front [c]).symm, hc⟩

theorem EndsFirm.of_forall {t : Text} (hne : t ≠ [])
    (h : ∀ c ∈ t, FlakeInputs.isBlank c = false ∧ c ≠ '/') : t.EndsFirm :=
  ⟨t.dropLast, t.getLast hne, (List.dropLast_append_getLast hne).symm, h _ (List.getLast_mem hne)⟩

theorem EndsFirm.not_endsBlank {t : Text} (h : t.EndsFirm) : ¬t.EndsBlank := by
  rintro ⟨front', c', hblank, hc'⟩
  obtain ⟨front, c, rfl, hc, -⟩ := h
  obtain ⟨-, heq⟩ := List.append_inj' hblank rfl
  rw [(List.cons.inj heq).1, hc'] at hc
  exact Bool.noConfusion hc

theorem EndsFirm.getLast?_ne {t : Text} (h : t.EndsFirm) : t.getLast? ≠ some '/' := by
  obtain ⟨front, c, rfl, -, hc⟩ := h
  rw [List.getLast?_concat]
  exact fun heq => hc (Option.some.inj heq)

/-! ## Trimming -/

theorem trimEnd_eq_rdropWhile (p : Char → Bool) (t : Text) : trimEnd p t = t.rdropWhile p := rfl

theorem trimEnd_concat_of_neg {p : Char → Bool} (front : Text) {c : Char} (hc : p c = false) :
    trimEnd p (front ++ [c]) = front ++ [c] := by
  rw [trimEnd_eq_rdropWhile]
  exact List.rdropWhile_concat_neg p front c (Bool.eq_false_iff.1 hc)

/-- What is trimmed off the end consists of characters that are to be trimmed. -/
theorem exists_trimEnd (p : Char → Bool) (t : Text) :
    ∃ s, t = trimEnd p t ++ s ∧ ∀ c ∈ s, p c = true := by
  refine ⟨t.rtakeWhile p, (List.rdropWhile_append_rtakeWhile ..).symm, fun c hc => ?_⟩
  exact List.mem_rtakeWhile_imp hc

theorem getLast?_trimEnd_ne (p : Char → Bool) (t : Text) {c : Char} (hc : p c = true) :
    (trimEnd p t).getLast? ≠ some c := by
  intro hlast
  obtain ⟨front, hfront⟩ := List.getLast?_eq_some_iff.1 hlast
  rw [trimEnd_eq_rdropWhile] at hfront
  have hne : t.rdropWhile p ≠ [] := by
    rw [hfront]
    exact List.concat_ne_nil c front
  have hstays := List.rdropWhile_last_not p t hne
  simp only [hfront, List.getLast_append_singleton] at hstays
  exact hstays hc

/-! ## The last piece -/

theorem splitOn_ne_nil (sep : Char) (t : Text) : splitOn sep t ≠ [] := by
  cases t with
  | nil => exact List.cons_ne_nil _ _
  | cons c t =>
    rw [splitOn]
    split
    · exact List.cons_ne_nil _ _
    · split <;> exact List.cons_ne_nil _ _

/-- The last piece of a text is at its end, and all of the text if it is the only one. -/
theorem exists_of_splitOn {sep : Char} {t w : Text} {front : List Text}
    (h : splitOn sep t = front ++ [w]) : ∃ p, t = p ++ w ∧ (front = [] → p = []) := by
  induction t generalizing front w with
  | nil =>
    have hw : w = [] := by
      cases front <;> simp_all [splitOn]
    exact ⟨[], by rw [hw, List.append_nil], fun _ => rfl⟩
  | cons c t ih =>
    rw [splitOn] at h
    split at h
    · cases front with
      | nil => exact absurd (List.cons.inj h).2 (splitOn_ne_nil sep t)
      | cons _ front =>
        obtain ⟨p, rfl, -⟩ := ih (List.cons.inj h).2
        exact ⟨c :: p, rfl, fun hnil => absurd hnil (List.cons_ne_nil _ _)⟩
    · cases hpieces : splitOn sep t with
      | nil => exact absurd hpieces (splitOn_ne_nil sep t)
      | cons first pieces =>
        rw [hpieces] at h
        cases front with
        | nil =>
          obtain ⟨rfl, rfl⟩ := List.cons.inj h
          obtain ⟨p, rfl, hp⟩ := ih (show splitOn sep t = [] ++ [first] from hpieces)
          exact ⟨[], by rw [hp rfl]; rfl, fun _ => rfl⟩
        | cons _ front =>
          obtain ⟨p, rfl, -⟩ := ih (show splitOn sep t = (first :: front) ++ [w] by
            rw [hpieces, (List.cons.inj h).2]
            rfl)
          exact ⟨c :: p, rfl, fun hnil => absurd hnil (List.cons_ne_nil _ _)⟩

theorem suffix_of_getLast?_splitOn {sep : Char} {t w : Text}
    (h : (splitOn sep t).getLast? = some w) : w <:+ t := by
  obtain ⟨front, hfront⟩ := List.getLast?_eq_some_iff.1 h
  obtain ⟨p, rfl, -⟩ := exists_of_splitOn hfront
  exact List.suffix_append p w

end Text

/-! ## Version requirements -/

namespace Version

/-- Whether a character can stand behind the relation of a comparator. -/
def isComparatorChar (c : Char) : Bool :=
  isLabelChar c || c == '*' || c == '+'

theorem isBlank_eq_false {c : Char} (hlow : 0x20 < c.toNat) (hhigh : c.toNat < 0x85) :
    isBlank c = false := by
  simp only [isBlank, blankRanges, List.any_cons, List.any_nil, Bool.or_false, Bool.or_eq_false_iff,
    Bool.and_eq_false_iff, decide_eq_false_iff_not]
  omega

theorem firm_of_isComparatorChar {c : Char} (h : isComparatorChar c = true) :
    isBlank c = false ∧ c ≠ '/' := by
  have hcode : 0x20 < c.toNat ∧ c.toNat < 0x85 ∧ c.toNat ≠ 0x2F := by
    simp only [isComparatorChar, isLabelChar, Bool.or_eq_true, beq_iff_eq] at h
    rcases h with ((((h | h) | rfl) | rfl) | rfl) | rfl
    · have hdigit := Word.isDigit_iff.1 h
      omega
    · have hletter := Word.isLetter_iff.1 h
      omega
    all_goals decide
  refine ⟨isBlank_eq_false hcode.1 hcode.2.1, ?_⟩
  rintro rfl
  exact hcode.2.2 rfl

/-- What is left of a text behind some characters of a comparator. -/
def Leaves (t rest : Text) : Prop :=
  ∃ s, t = s ++ rest ∧ ∀ c ∈ s, isComparatorChar c = true

theorem Leaves.refl (t : Text) : Leaves t t :=
  ⟨[], rfl, by simp⟩

theorem Leaves.trans {t u v : Text} (htu : Leaves t u) (huv : Leaves u v) : Leaves t v := by
  obtain ⟨s, rfl, hs⟩ := htu
  obtain ⟨s', rfl, hs'⟩ := huv
  refine ⟨s ++ s', (List.append_assoc s s' v).symm, fun c hc => ?_⟩
  exact (List.mem_append.1 hc).elim (hs c) (hs' c)

theorem Leaves.cons {t rest : Text} (h : Leaves t rest) {c : Char}
    (hc : isComparatorChar c = true) : Leaves (c :: t) rest := by
  obtain ⟨s, rfl, hs⟩ := h
  exact ⟨c :: s, rfl, List.forall_mem_cons.2 ⟨hc, hs⟩⟩

theorem leaves_dropWhile {p : Char → Bool} (hp : ∀ c, p c = true → isComparatorChar c = true)
    (t : Text) : Leaves t (t.dropWhile p) :=
  ⟨t.takeWhile p, List.takeWhile_append_dropWhile.symm,
    fun c hc => hp c (List.mem_takeWhile_imp hc)⟩

theorem isComparatorChar_of_isLabelChar {c : Char} (h : isLabelChar c = true) :
    isComparatorChar c = true := by
  rw [isComparatorChar, h]
  rfl

theorem isComparatorChar_of_isDigit {c : Char} (h : c.isDigit = true) :
    isComparatorChar c = true := by
  rw [isComparatorChar, isLabelChar, h]
  rfl

theorem leaves_of_dropNumber? {t rest : Text} (h : dropNumber? t = some rest) :
    t ≠ [] ∧ Leaves t rest := by
  unfold dropNumber? at h
  split at h
  · cases h
  · next c t =>
    refine ⟨List.cons_ne_nil c t, ?_⟩
    split at h
    · next hc =>
      rw [← Option.some.inj h]
      exact (leaves_dropWhile (fun _ => isComparatorChar_of_isDigit) t).cons
        (isComparatorChar_of_isDigit hc)
    · split at h
      · next hc =>
        rw [← Option.some.inj h]
        simp only [Bool.or_eq_true, beq_iff_eq] at hc
        refine (Leaves.refl t).cons ?_
        rcases hc with (rfl | rfl) | rfl <;> rfl
      · cases h

theorem leaves_dropNumbers (n : Nat) (t : Text) : Leaves t (dropNumbers n t) := by
  fun_induction dropNumbers n t with
  | case1 n t rest hnumber ih => exact ((leaves_of_dropNumber? hnumber).2.trans ih).cons rfl
  | case2 n t hnumber => exact Leaves.refl _
  | case3 n t => exact Leaves.refl t

theorem leaves_dropLabel {mark : Char} (hmark : isComparatorChar mark = true) (t : Text) :
    Leaves t (dropLabel mark t) := by
  unfold dropLabel
  split
  · next c d t =>
    split
    · next h =>
      obtain ⟨rfl, hd⟩ : c = mark ∧ isLabelChar d = true := by simpa using h
      exact ((leaves_dropWhile (fun _ => isComparatorChar_of_isLabelChar) t).cons
        (isComparatorChar_of_isLabelChar hd)).cons hmark
    · exact Leaves.refl _
  · exact Leaves.refl t

theorem dropRelation_suffix (t : Text) : dropRelation t <:+ t := by
  unfold dropRelation
  split
  case h_3 t => exact List.suffix_append ['<', '='] t
  case h_4 t => exact List.suffix_append ['>', '='] t
  case h_8 => exact List.suffix_refl t
  all_goals exact List.suffix_cons _ _

theorem endsFirm_of_isComparator {t : Text} (h : isComparator t = true) : t.EndsFirm := by
  unfold isComparator at h
  split at h
  · cases h
  · next rest hnumber =>
    obtain ⟨hne, hnumber⟩ := leaves_of_dropNumber? hnumber
    have hminus : isComparatorChar '-' = true := rfl
    have hplus : isComparatorChar '+' = true := rfl
    have hleaves := hnumber.trans ((leaves_dropNumbers 2 rest).trans
      ((leaves_dropLabel hminus _).trans (leaves_dropLabel hplus _)))
    -- Nothing is left behind the numbers and labels, so the text ends in one of them.
    rw [List.isEmpty_iff.1 h] at hleaves
    obtain ⟨s, hs, hchars⟩ := hleaves
    rw [List.append_nil] at hs
    have hfirm := Text.EndsFirm.of_forall hne fun c hc =>
      firm_of_isComparatorChar (hchars c (hs ▸ hc))
    exact hfirm.of_suffix ((List.dropWhile_suffix _).trans (dropRelation_suffix t))

/-- Of some comparators, the last one ends firmly. -/
theorem endsFirm_of_areComparators {t : Text} {rest : List Text}
    (h : areComparators t rest = true) {w : Text} (hw : (t :: rest).getLast? = some w) :
    w.EndsFirm := by
  induction rest generalizing t w with
  | nil =>
    obtain rfl : t = w := Option.some.inj hw
    exact endsFirm_of_isComparator h
  | cons next rest ih =>
    rw [areComparators, Bool.and_eq_true] at h
    cases rest with
    | nil =>
      obtain rfl : next = w := Option.some.inj hw
      exact (ih h.2 List.getLast?_singleton).of_suffix (List.dropWhile_suffix _)
    | cons u rest => exact ih h.2 hw

theorem endsFirm_of_isRequirement {t : Text} (h : isRequirement t = true) : t.EndsFirm := by
  unfold isRequirement at h
  split at h
  · cases h
  · next first rest hpieces =>
    have hlast := List.getLast?_eq_some_getLast (List.cons_ne_nil first rest)
    exact (endsFirm_of_areComparators h hlast).of_suffix
      (Text.suffix_of_getLast?_splitOn (by rw [hpieces, hlast]))

end Version
end FlakeInputs
