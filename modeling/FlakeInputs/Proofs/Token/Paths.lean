import FlakeInputs.Proofs.Token.Lawful

/-!
# Laws of paths

A path is made of segments between slashes, or it stands between angle brackets.  Both
classes of words are lawful.
-/

namespace FlakeInputs
namespace Word

theorem segments_within (t : Text) : segments t <+: t := by
  fun_induction segments t with
  | case1 c t hc ih => simpa using ih
  | case2 c t hc => exact List.nil_prefix
  | case3 c t _ hc ih => simpa using ih
  | case4 c t _ hc => exact List.nil_prefix
  | case5 => exact List.prefix_rfl

theorem segments_stable (t t' : Text) (h : segments t <+: t') : segments t <+: segments t' := by
  fun_induction segments t generalizing t' with
  | case1 c t hc ih =>
    obtain ⟨r, rfl⟩ := h
    simp only [List.cons_append, segments, hc, if_true, List.cons_prefix_cons, true_and]
    exact ih _ (List.prefix_append _ _)
  | case2 c t hc => exact List.nil_prefix
  | case3 c t hslash hc ih =>
    obtain ⟨r, rfl⟩ := h
    have hne : c ≠ '/' := by
      rintro rfl
      exact absurd hc (by decide)
    have hstep : segments (c :: (segments t ++ r)) = c :: segments (segments t ++ r) := by
      rw [segments.eq_2 _ _ fun _ _ heq => absurd heq hne, if_pos hc]
    rw [List.cons_append, hstep, List.cons_prefix_cons]
    exact ⟨rfl, ih _ (List.prefix_append _ _)⟩
  | case4 c t _ hc => exact List.nil_prefix
  | case5 => exact List.nil_prefix

theorem segments_spelled (t : Text) : ∀ c ∈ segments t, isPathChar c = true ∨ c = '/' := by
  fun_induction segments t with
  | case1 c t hc ih =>
    intro d hd
    rcases List.mem_cons.1 hd with rfl | hd
    · exact .inr rfl
    rcases List.mem_cons.1 hd with rfl | hd
    · exact .inl hc
    · exact ih d hd
  | case3 c t _ hc ih =>
    intro d hd
    rcases List.mem_cons.1 hd with rfl | hd
    · exact .inl hc
    · exact ih d hd
  | case2 | case4 | case5 => intro d hd; exact absurd hd List.not_mem_nil

/-- Segments, and one more slash. -/
def slashed (t : Text) : Text :=
  segments t ++ slash (t.drop (segments t).length)

theorem slash_within (t : Text) : slash t <+: t := by
  unfold slash
  split
  · exact ⟨_, rfl⟩
  · exact List.nil_prefix

theorem slash_stable {t t' : Text} (h : slash t <+: t') : slash t <+: slash t' := by
  unfold slash at h ⊢
  split at h
  · obtain ⟨r, rfl⟩ := h
    exact List.prefix_rfl
  · exact List.nil_prefix

/-- A longer beginning of the same text goes on with the next character of the text. -/
theorem concat_le {a b t : Text} {c : Char} (ha : a <+: b) (hb : b <+: t) (hne : a ≠ b)
    (hc : a ++ [c] <+: t) : a ++ [c] <+: b := by
  refine List.prefix_of_prefix_length_le hc hb ?_
  have hlt : a.length < b.length :=
    Nat.lt_of_le_of_ne ha.length_le fun heq => hne (ha.eq_of_length heq)
  rw [List.length_append]
  exact hlt

theorem slashed_within (t : Text) : slashed t <+: t :=
  append_within segments_within slash_within t

theorem slashed_stable (t t' : Text) (h : slashed t <+: t') : slashed t <+: slashed t' := by
  refine append_stable (fun _ _ => slash_stable) h fun hne => ?_
  have hle : segments t <+: segments t' :=
    segments_stable t t' ((List.prefix_append _ _).trans h)
  unfold slashed at h
  generalize t.drop (segments t).length = r at h
  unfold slash at h ⊢
  split at h
  · exact concat_le hle (segments_within t') hne h
  · rw [List.append_nil]
    exact hle

theorem slashed_spelled (t : Text) : ∀ c ∈ slashed t, isPathlike c = true := by
  intro c hc
  rcases List.mem_append.1 hc with hc | hc
  · rcases segments_spelled t c hc with hc | rfl
    · exact isPathlike_of_isPathChar hc
    · decide
  · unfold slash at hc
    split at hc
    · rw [List.mem_singleton.1 hc]
      decide
    · exact absurd hc List.not_mem_nil

theorem path_tilde (t : Text) :
    path ('~' :: t) = if (segments t).head? = some '/' then '~' :: slashed t else [] := by
  rw [path, slashed]
  cases segments t with
  | nil => rfl
  | cons c body =>
    by_cases hc : c = '/'
    · subst hc
      rfl
    · simp only [List.head?_cons, Option.some.injEq, hc, if_false]
      split
      · next heq => exact absurd (List.cons.inj heq).1 hc
      · rfl

theorem path_bare {t : Text} (ht : t.head? ≠ some '~') :
    path t = if (segments t).contains '/' then slashed t else [] := by
  unfold path
  split
  · exact absurd rfl ht
  · rfl

theorem head?_of_le {a b : Text} {c : Char} (h : a <+: b) (ha : a.head? = some c) :
    b.head? = some c := by
  obtain ⟨r, rfl⟩ := h
  rw [List.head?_append, ha, Option.some_or]

theorem lawful_path : Lawful isPathlike path where
  within t := by
    by_cases ht : t.head? = some '~'
    · obtain ⟨t, rfl⟩ := List.head?_eq_some_iff.1 ht
      rw [path_tilde]
      split
      · exact List.cons_prefix_cons.2 ⟨rfl, slashed_within t⟩
      · exact List.nil_prefix
    · rw [path_bare ht]
      split
      · exact slashed_within t
      · exact List.nil_prefix
  stable t t' h := by
    by_cases ht : t.head? = some '~'
    · obtain ⟨t, rfl⟩ := List.head?_eq_some_iff.1 ht
      rw [path_tilde] at h ⊢
      split at h
      · next hslash =>
        obtain ⟨r, rfl⟩ := h
        have hle := segments_stable t (slashed t ++ r)
          ((List.prefix_append _ _).trans (List.prefix_append _ _))
        rw [if_pos hslash, List.cons_append, path_tilde, if_pos (head?_of_le hle hslash)]
        exact List.cons_prefix_cons.2 ⟨rfl, slashed_stable _ _ (List.prefix_append _ _)⟩
      · next hslash =>
        rw [if_neg hslash]
        exact List.nil_prefix
    · rw [path_bare ht] at h ⊢
      split at h
      · next hslash =>
        have hle := segments_stable t t' ((List.prefix_append _ _).trans h)
        have hmem : '/' ∈ segments t' := hle.subset (List.contains_iff_mem.1 hslash)
        have ht' : t'.head? ≠ some '~' := by
          intro htilde
          have hne : segments t ≠ [] := List.ne_nil_of_mem (List.contains_iff_mem.1 hslash)
          obtain ⟨c, body, hcons⟩ := List.exists_cons_of_ne_nil hne
          have hhead := head?_of_le (segments_within t) (by rw [hcons]; rfl)
          have hhead' := head?_of_le (hle.trans (segments_within t')) (by rw [hcons]; rfl)
          exact ht (hhead.trans (hhead'.symm.trans htilde))
        rw [if_pos hslash, path_bare ht', if_pos (List.contains_iff_mem.2 hmem)]
        exact slashed_stable t t' h
      · next hslash =>
        rw [if_neg hslash]
        exact List.nil_prefix
  spelled t c hc := by
    by_cases ht : t.head? = some '~'
    · obtain ⟨t, rfl⟩ := List.head?_eq_some_iff.1 ht
      rw [path_tilde] at hc
      split at hc
      · rcases List.mem_cons.1 hc with rfl | hc
        · decide
        · exact slashed_spelled t c hc
      · exact absurd hc List.not_mem_nil
    · rw [path_bare ht] at hc
      split at hc
      · exact slashed_spelled t c hc
      · exact absurd hc List.not_mem_nil

/-- Segments end where neither a path character nor a slash follows. -/
theorem segments_append {w r : Text} {c : Char} (hw : segments w = w)
    (hc : isPathChar c = false) (hslash : c ≠ '/') : segments (w ++ c :: r) = w := by
  have hle : w <+: segments (w ++ c :: r) := by
    have hstable := segments_stable w (w ++ c :: r)
    rw [hw] at hstable
    exact hstable (List.prefix_append _ _)
  refine Eq.symm (Classical.byContradiction fun hne => ?_)
  have hmore := concat_le hle (segments_within _) hne (c := c) ⟨r, by simp⟩
  rcases segments_spelled _ c (hmore.subset (by simp)) with h | h
  · rw [h] at hc
    exact Bool.noConfusion hc
  · exact hslash h

theorem segments_idem (t : Text) : segments (segments t) = segments t :=
  (segments_within _).eq_of_length_le (segments_stable t _ List.prefix_rfl).length_le

/-- A path between angle brackets, by its segments. -/
theorem searchPath_angle (t : Text) :
    searchPath ('<' :: t) =
      if segments t ≠ [] ∧ (t.drop (segments t).length).head? = some '>' ∧
        (segments t).head? ≠ some '/' then '<' :: segments t ++ ['>'] else [] := by
  rw [searchPath]
  cases segments t with
  | nil => simp
  | cons c body =>
    simp only [List.length_cons, List.head?_cons]
    cases t.drop (body.length + 1) with
    | nil => simp
    | cons d rest =>
      by_cases hd : d = '>'
      · subst hd
        by_cases hc : c = '/' <;> simp [hc]
      · simp only [List.head?_cons, Option.some.injEq, hd, false_and, and_false, if_false]
        split
        · next heq => exact absurd (List.cons.inj heq).1 hd
        · rfl

theorem searchPath_of_ne {t : Text} (ht : t.head? ≠ some '<') : searchPath t = [] := by
  unfold searchPath
  split
  · exact absurd rfl ht
  · rfl

theorem lawful_searchPath : Lawful isPathlike searchPath where
  within t := by
    by_cases ht : t.head? = some '<'
    · obtain ⟨t, rfl⟩ := List.head?_eq_some_iff.1 ht
      rw [searchPath_angle]
      split
      · next h =>
        obtain ⟨r, hr⟩ := segments_within t
        obtain ⟨rest, hrest⟩ := List.head?_eq_some_iff.1 h.2.1
        rw [drop_of_append_eq hr] at hrest
        rw [List.cons_append, List.cons_prefix_cons]
        exact ⟨rfl, rest, by rw [List.append_assoc, List.singleton_append, ← hrest, hr]⟩
      · exact List.nil_prefix
    · rw [searchPath_of_ne ht]
      exact List.nil_prefix
  stable t t' h := by
    by_cases ht : t.head? = some '<'
    · obtain ⟨t, rfl⟩ := List.head?_eq_some_iff.1 ht
      rw [searchPath_angle] at h ⊢
      split at h
      · next hclosed =>
        obtain ⟨r, rfl⟩ := h
        have hsegments : segments (segments t ++ '>' :: r) = segments t :=
          segments_append (segments_idem t) (by decide) (by decide)
        have htext : '<' :: segments t ++ ['>'] ++ r = '<' :: (segments t ++ '>' :: r) := by simp
        have hmark : ((segments t ++ '>' :: r).drop (segments t).length).head? = some '>' := by
          rw [List.drop_left, List.head?_cons]
        have htaken :
            searchPath ('<' :: (segments t ++ '>' :: r)) = '<' :: segments t ++ ['>'] := by
          rw [searchPath_angle, hsegments, if_pos ⟨hclosed.1, hmark, hclosed.2.2⟩]
        rw [if_pos hclosed, htext]
        exact ⟨[], by rw [List.append_nil, htaken]⟩
      · next hclosed =>
        rw [if_neg hclosed]
        exact List.nil_prefix
    · rw [searchPath_of_ne ht]
      exact List.nil_prefix
  spelled t c hc := by
    by_cases ht : t.head? = some '<'
    · obtain ⟨t, rfl⟩ := List.head?_eq_some_iff.1 ht
      rw [searchPath_angle] at hc
      split at hc
      · rw [List.cons_append, List.mem_cons, List.mem_append, List.mem_singleton] at hc
        rcases hc with rfl | hc | rfl
        · decide
        · rcases segments_spelled t c hc with hc | rfl
          · exact isPathlike_of_isPathChar hc
          · decide
        · decide
      · exact absurd hc List.not_mem_nil
    · rw [searchPath_of_ne ht] at hc
      exact absurd hc List.not_mem_nil

end Word
end FlakeInputs
