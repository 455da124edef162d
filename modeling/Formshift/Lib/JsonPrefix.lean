/-
Formshift/Lib/JsonPrefix.lean

A JSON object ends with its own closing brace.

What the reader has read of a text it reads of every longer text
(`readValue_append`), so a prefix of an object's line is either no JSON or the
whole object (`loads_of_prefix`): a peer that dies in the middle of a line is
never misread.
-/
import Formshift.Lib.JsonReader

namespace Py

namespace Json

variable {p q rest : List Char}

/-! ### Strings -/

theorem unhex4_append {n : Nat} (h : unhex4 p = some (n, rest)) :
    unhex4 (p ++ q) = some (n, rest ++ q) := by
  match p with
  | a :: b :: c :: d :: cs =>
      simp only [unhex4, List.cons_append, Option.bind_eq_bind, Option.bind_eq_some_iff] at h ⊢
      obtain ⟨a', ha, b', hb, c', hc, d', hd, hn⟩ := h
      obtain ⟨rfl, rfl⟩ := Prod.mk.inj (Option.some.inj hn)
      exact ⟨a', ha, b', hb, c', hc, d', hd, rfl⟩
  | [] | [_] | [_, _] | [_, _, _] => cases h

/-- What is read of a string body is read of a longer one, unless an escape that may
belong to it is cut off. -/
theorem unescape_append {c : Code} (h : unescape p = some (c, rest)) (hne : rest ≠ [])
    (hback : rest ≠ ['\\']) : unescape (p ++ q) = some (c, rest ++ q) := by
  unfold unescape at h
  split at h
  · rename_i cs
    obtain ⟨⟨n, cs'⟩, hn, h⟩ := Option.bind_eq_some_iff.mp h
    have hn' := unhex4_append (q := q) hn
    simp only [List.cons_append, unescape, hn', Option.bind_eq_bind, Option.bind_some] at h ⊢
    split_ifs at h ⊢ with hhi
    · split at h
      · rename_i more
        obtain ⟨⟨m, more'⟩, hm, h⟩ := Option.bind_eq_some_iff.mp h
        have hm' := unhex4_append (q := q) hm
        simp only [List.cons_append, hm', Option.bind_some] at h ⊢
        split_ifs at h ⊢
        · obtain ⟨rfl, rfl⟩ := Prod.mk.inj (Option.some.inj h)
          rfl
        · obtain ⟨rfl, rfl⟩ := Prod.mk.inj (Option.some.inj h)
          rfl
      · rename_i hnot
        obtain ⟨rfl, rfl⟩ := Prod.mk.inj (Option.some.inj h)
        split
        · rename_i more heq
          -- the escape would have to begin in the shorter text
          cases cs' with
          | nil => exact absurd rfl hne
          | cons d ds =>
              obtain ⟨hd, heq⟩ := List.cons.inj heq
              cases ds with
              | nil => exact absurd (by rw [hd]) hback
              | cons e es =>
                  obtain ⟨he, -⟩ := List.cons.inj heq
                  exact absurd (by rw [hd, he]) (hnot es)
        · rfl
    · obtain ⟨rfl, rfl⟩ := Prod.mk.inj (Option.some.inj h)
      rfl
  · obtain ⟨rfl, rfl⟩ := Prod.mk.inj (Option.some.inj h)
    rfl
  · obtain ⟨rfl, rfl⟩ := Prod.mk.inj (Option.some.inj h)
    rfl
  · obtain ⟨rfl, rfl⟩ := Prod.mk.inj (Option.some.inj h)
    rfl
  · obtain ⟨rfl, rfl⟩ := Prod.mk.inj (Option.some.inj h)
    rfl
  · obtain ⟨rfl, rfl⟩ := Prod.mk.inj (Option.some.inj h)
    rfl
  · obtain ⟨rfl, rfl⟩ := Prod.mk.inj (Option.some.inj h)
    rfl
  · obtain ⟨rfl, rfl⟩ := Prod.mk.inj (Option.some.inj h)
    rfl
  · obtain ⟨rfl, rfl⟩ := Prod.mk.inj (Option.some.inj h)
    rfl
  · cases h
  · cases h
  · rename_i c' cs hu hn hr ht hf hb hq hs hsl hback hquote
    split at h
    · cases h
    · rename_i hctrl
      obtain ⟨rfl, rfl⟩ := Prod.mk.inj (Option.some.inj h)
      unfold unescape
      grind
  · cases h

/-- A string body does not end where an escape may begin. -/
theorem readString_ne {fuel : Nat} {s : List Code} (h : readString fuel p = some (s, rest)) :
    p ≠ [] ∧ p ≠ ['\\'] := by
  cases fuel with
  | zero => cases h
  | succ fuel =>
      constructor
      · rintro rfl
        cases h
      · rintro rfl
        cases h

theorem readString_append {fuel fuel' : Nat} {s : List Code}
    (h : readString fuel p = some (s, rest)) (hfuel : fuel ≤ fuel') :
    readString fuel' (p ++ q) = some (s, rest ++ q) := by
  induction fuel generalizing fuel' p s with
  | zero => cases h
  | succ fuel ih =>
      obtain ⟨fuel', rfl⟩ := Nat.exists_eq_succ_of_ne_zero (n := fuel') (by omega)
      unfold readString at h ⊢
      cases hu : unescape p with
      | some x =>
          obtain ⟨c, cs⟩ := x
          rw [hu] at h
          obtain ⟨⟨s', rest'⟩, hs, heq⟩ := Option.map_eq_some_iff.mp h
          obtain ⟨rfl, rfl⟩ := Prod.mk.inj heq
          obtain ⟨hne, hback⟩ := readString_ne hs
          rw [unescape_append hu hne hback]
          simp only [ih hs (show fuel ≤ fuel' by omega), Option.map_some]
      | none =>
          rw [hu] at h
          simp only at h
          split at h
          · obtain ⟨rfl, rfl⟩ := Prod.mk.inj (Option.some.inj h)
            rfl
          · cases h

/-! ### White space and words -/

theorem skip_append (h : skip p ≠ []) : skip (p ++ q) = skip p ++ q := by
  induction p with
  | nil => exact absurd rfl h
  | cons c cs ih =>
      by_cases hc : isBlank c = true
      · have hskip : ∀ l, skip (c :: l) = skip l := fun l => List.dropWhile_cons_of_pos hc
        rw [hskip] at h
        rw [List.cons_append, hskip, hskip, ih h]
      · have hskip : ∀ l, skip (c :: l) = c :: l := fun l => List.dropWhile_cons_of_neg hc
        rw [List.cons_append, hskip, hskip, List.cons_append]

/-- A token found behind white space. -/
theorem skip_append_cons {c : Char} {cs : List Char} (h : skip p = c :: cs) :
    skip (p ++ q) = c :: (cs ++ q) := by
  rw [skip_append (by simp [h]), h, List.cons_append]

theorem word_append {cs : List Char} (h : cs.dropWhile isLiteralChar ≠ []) :
    (cs ++ q).takeWhile isLiteralChar = cs.takeWhile isLiteralChar ∧
      (cs ++ q).dropWhile isLiteralChar = cs.dropWhile isLiteralChar ++ q := by
  induction cs with
  | nil => exact absurd rfl h
  | cons c cs ih =>
      by_cases hc : isLiteralChar c = true
      · simp only [List.cons_append, List.takeWhile_cons, List.dropWhile_cons, hc, if_true] at h ⊢
        exact ⟨congrArg _ (ih h).1, (ih h).2⟩
      · simp [hc]

/-- The first token is not one of another kind in the longer text. -/
theorem skip_append_ne {c : Char} (h : skip p ≠ []) (hnot : ∀ cs, skip p ≠ c :: cs) (cs : List Char) :
    skip p ++ q ≠ c :: cs := by
  obtain ⟨d, l, hl⟩ := List.exists_cons_of_ne_nil h
  rw [hl, List.cons_append]
  rintro heq
  obtain ⟨rfl, -⟩ := List.cons.inj heq
  exact hnot l hl

/-- Nothing is read of white space. -/
theorem readValue_blank {fuel : Nat} (h : skip p = []) : readValue fuel p = none := by
  cases fuel with
  | zero => rfl
  | succ fuel =>
      rw [readValue, h]
      rfl

theorem readItems_blank {fuel : Nat} (h : skip p = []) : readItems fuel p = none := by
  cases fuel with
  | zero => rfl
  | succ fuel =>
      rw [readItems, readValue_blank h]
      rfl

theorem readFields_blank {fuel : Nat} (h : skip p = []) : readFields fuel p = none := by
  cases fuel with
  | zero => rfl
  | succ fuel => simp [readFields, h]

/-! ### Values -/

mutual

/-- **What is read of a text is read of a longer one**; only a bare word at the
end of the text can still grow. -/
theorem readValue_append {fuel fuel' : Nat} {p rest : List Char} {v : Json}
    (h : readValue fuel p = some (v, rest)) (hfuel : fuel ≤ fuel')
    (hend : rest ≠ [] ∨ ∃ cs, skip p = '\x7b' :: cs) (q : List Char) :
    readValue fuel' (p ++ q) = some (v, rest ++ q) := by
  match fuel with
  | 0 => cases h
  | fuel + 1 =>
      obtain ⟨fuel', rfl⟩ := Nat.exists_eq_succ_of_ne_zero (n := fuel') (by omega)
      have hle : fuel ≤ fuel' := by omega
      have hne : skip p ≠ [] := fun hblank => by
        rw [readValue_blank hblank] at h
        cases h
      rw [readValue] at h ⊢
      split at h
      · rename_i cs hp
        obtain ⟨⟨s, rest'⟩, hs, heq⟩ := Option.map_eq_some_iff.mp h
        obtain ⟨rfl, rfl⟩ := Prod.mk.inj heq
        rw [skip_append_cons hp]
        simp only [readString_append hs hle, Option.map_some]
      · rename_i cs hp
        rw [skip_append_cons hp]
        split at h
        · rename_i cs' hcs
          obtain ⟨rfl, rfl⟩ := Prod.mk.inj (Option.some.inj h)
          simp only [skip_append_cons hcs]
        · rename_i hnot
          obtain ⟨⟨xs, rest'⟩, hxs, heq⟩ := Option.map_eq_some_iff.mp h
          obtain ⟨rfl, rfl⟩ := Prod.mk.inj heq
          have hcs : skip cs ≠ [] := fun hblank => by
            rw [readItems_blank hblank] at hxs
            cases hxs
          simp only [readItems_append hxs hle q, skip_append hcs]
          split
          · rename_i cs' heq
            exact absurd heq (skip_append_ne hcs hnot cs')
          · rfl
      · rename_i cs hp
        rw [skip_append_cons hp]
        split at h
        · rename_i cs' hcs
          obtain ⟨rfl, rfl⟩ := Prod.mk.inj (Option.some.inj h)
          simp only [skip_append_cons hcs]
        · rename_i hnot
          obtain ⟨⟨fs, rest'⟩, hfs, heq⟩ := Option.map_eq_some_iff.mp h
          obtain ⟨rfl, rfl⟩ := Prod.mk.inj heq
          have hcs : skip cs ≠ [] := fun hblank => by
            rw [readFields_blank hblank] at hfs
            cases hfs
          simp only [readFields_append hfs hle q, skip_append hcs]
          split
          · rename_i cs' heq
            exact absurd heq (skip_append_ne hcs hnot cs')
          · rfl
      · rename_i hquote hbracket hbrace
        obtain ⟨w, hw, heq⟩ := Option.map_eq_some_iff.mp h
        obtain ⟨rfl, rfl⟩ := Prod.mk.inj heq
        have hrest := hend.resolve_right fun ⟨cs, hcs⟩ => hbrace cs hcs
        obtain ⟨htake, hdrop⟩ := word_append (q := q) hrest
        rw [skip_append hne]
        split
        · rename_i cs heq
          exact absurd heq (skip_append_ne hne hquote cs)
        · rename_i cs heq
          exact absurd heq (skip_append_ne hne hbracket cs)
        · rename_i cs heq
          exact absurd heq (skip_append_ne hne hbrace cs)
        · rw [htake, hdrop, hw]
          rfl

theorem readItems_append {fuel fuel' : Nat} {p rest : List Char} {xs : List Json}
    (h : readItems fuel p = some (xs, rest)) (hfuel : fuel ≤ fuel') (q : List Char) :
    readItems fuel' (p ++ q) = some (xs, rest ++ q) := by
  match fuel with
  | 0 => cases h
  | fuel + 1 =>
      obtain ⟨fuel', rfl⟩ := Nat.exists_eq_succ_of_ne_zero (n := fuel') (by omega)
      have hle : fuel ≤ fuel' := by omega
      rw [readItems] at h ⊢
      obtain ⟨⟨v, cs⟩, hv, h⟩ := Option.bind_eq_some_iff.mp h
      simp only at h
      have hcs : cs ≠ [] := by
        rintro rfl
        cases h
      rw [readValue_append hv hle (Or.inl hcs) q, Option.bind_eq_bind, Option.bind_some]
      simp only
      split at h
      · rename_i cs' hclose
        obtain ⟨rfl, rfl⟩ := Prod.mk.inj (Option.some.inj h)
        simp only [skip_append_cons hclose]
      · rename_i cs' hcomma
        obtain ⟨⟨ys, rest'⟩, hys, heq⟩ := Option.map_eq_some_iff.mp h
        obtain ⟨rfl, rfl⟩ := Prod.mk.inj heq
        simp only [skip_append_cons hcomma, readItems_append hys hle q, Option.map_some]
      · cases h

theorem readFields_append {fuel fuel' : Nat} {p rest : List Char} {fs : List (Str × Json)}
    (h : readFields fuel p = some (fs, rest)) (hfuel : fuel ≤ fuel') (q : List Char) :
    readFields fuel' (p ++ q) = some (fs, rest ++ q) := by
  match fuel with
  | 0 => cases h
  | fuel + 1 =>
      obtain ⟨fuel', rfl⟩ := Nat.exists_eq_succ_of_ne_zero (n := fuel') (by omega)
      have hle : fuel ≤ fuel' := by omega
      rw [readFields] at h ⊢
      split at h
      · rename_i cs hp
        rw [skip_append_cons hp]
        obtain ⟨⟨k, cs₁⟩, hk, h⟩ := Option.bind_eq_some_iff.mp h
        simp only [readString_append hk hle, Option.bind_eq_bind, Option.bind_some]
        simp only at h
        split at h
        · rename_i cs₂ hcolon
          rw [skip_append_cons hcolon]
          obtain ⟨⟨v, cs₃⟩, hv, h⟩ := Option.bind_eq_some_iff.mp h
          simp only at h
          have hne : cs₃ ≠ [] := by
            rintro rfl
            cases h
          simp only [readValue_append hv hle (Or.inl hne) q, Option.bind_some]
          split at h
          · rename_i cs₄ hclose
            obtain ⟨rfl, rfl⟩ := Prod.mk.inj (Option.some.inj h)
            simp only [skip_append_cons hclose]
          · rename_i cs₄ hcomma
            obtain ⟨⟨gs, rest'⟩, hgs, heq⟩ := Option.map_eq_some_iff.mp h
            obtain ⟨rfl, rfl⟩ := Prod.mk.inj heq
            simp only [skip_append_cons hcomma, readFields_append hgs hle q, Option.map_some]
          · cases h
        · cases h
      · cases h

end

/-! ### Lines -/

theorem ofWord_ne_obj (w : List Char) {fields : List (Str × Json)} :
    ofWord w ≠ some (.obj fields) := by
  unfold ofWord
  split_ifs
  · simp
  · simp
  · simp
  · split <;> simp
  · split <;> simp

/-- An object opens with a brace. -/
theorem brace_of_readValue {fuel : Nat} {fields : List (Str × Json)}
    (h : readValue fuel p = some (.obj fields, rest)) : ∃ cs, skip p = '\x7b' :: cs := by
  cases fuel with
  | zero => cases h
  | succ fuel =>
      rw [readValue] at h
      split at h
      · obtain ⟨⟨s, _⟩, -, heq⟩ := Option.map_eq_some_iff.mp h
        cases (Prod.mk.inj heq).1
      · split at h
        · cases (Prod.mk.inj (Option.some.inj h)).1
        · obtain ⟨⟨xs, _⟩, -, heq⟩ := Option.map_eq_some_iff.mp h
          cases (Prod.mk.inj heq).1
      · rename_i cs hp
        exact ⟨cs, hp⟩
      · obtain ⟨w, hw, heq⟩ := Option.map_eq_some_iff.mp h
        obtain ⟨rfl, -⟩ := Prod.mk.inj heq
        exact absurd hw (ofWord_ne_obj _)

theorem loads_eq_some_iff {v : Json} : loads p = some v ↔
    ∃ rest, readValue (p.length + 1) p = some (v, rest) ∧ skip rest = [] := by
  unfold loads
  split
  · rename_i w rest hread
    rw [hread]
    split
    · rename_i hskip
      constructor
      · intro h
        exact ⟨rest, by rw [Option.some.inj h], hskip⟩
      · rintro ⟨rest', heq, -⟩
        rw [(Prod.mk.inj (Option.some.inj heq)).1]
    · rename_i hskip
      refine iff_of_false (by simp) ?_
      rintro ⟨rest', heq, hskip'⟩
      rw [(Prod.mk.inj (Option.some.inj heq)).2] at hskip
      exact hskip hskip'
  · rename_i hread
    simp [hread]

/-- White space may follow an object. -/
theorem loads_append_blank {fields : List (Str × Json)} (h : loads p = some (.obj fields))
    {c : Char} (hc : isBlank c = true) : loads (p ++ [c]) = some (.obj fields) := by
  obtain ⟨rest, hread, hskip⟩ := loads_eq_some_iff.mp h
  refine loads_eq_some_iff.mpr ⟨rest ++ [c], readValue_append hread (by simp)
    (Or.inr (brace_of_readValue hread)) [c], ?_⟩
  have hall : ∀ d ∈ rest ++ [c], isBlank d = true := by
    intro d hd
    rcases List.mem_append.mp hd with hd | hd
    · exact List.dropWhile_eq_nil_iff.mp hskip d hd
    · rw [List.mem_singleton.mp hd]
      exact hc
  exact List.dropWhile_eq_nil_iff.mpr hall

/-- **A prefix of an object's text that reads at all reads as the object.** -/
theorem loads_of_prefix {t : List Char} {fields : List (Str × Json)}
    (ht : loads t = some (.obj fields)) (hpre : p <+: t) {v : Json} (hp : loads p = some v) :
    v = .obj fields := by
  obtain ⟨q, rfl⟩ := hpre
  obtain ⟨rest, hread, -⟩ := loads_eq_some_iff.mp ht
  obtain ⟨rest', hread', -⟩ := loads_eq_some_iff.mp hp
  have hne : skip p ≠ [] := fun hblank => by
    rw [readValue_blank hblank] at hread'
    cases hread'
  obtain ⟨cs, hbrace⟩ := brace_of_readValue hread
  have hopen : ∃ cs, skip p = '\x7b' :: cs := by
    obtain ⟨c, l, hl⟩ := List.exists_cons_of_ne_nil hne
    rw [skip_append_cons hl] at hbrace
    exact ⟨l, by rw [hl, (List.cons.inj hbrace).1]⟩
  have hlonger : readValue ((p ++ q).length + 1) (p ++ q) = some (v, rest' ++ q) :=
    readValue_append hread' (by simp) (Or.inr hopen) q
  rw [hread] at hlonger
  exact (Prod.mk.inj (Option.some.inj hlonger)).1.symm

end Json

end Py
