import Mathlib.Data.List.Basic

/-!
# Formats that are read from the front

A stream of symbols holds items one behind the other.  `Format.front` looks at what
stands at its front: an item, something bad, or too little to tell.  More symbols
behind do not change what has once been told (`stable`), so it does not matter how
the stream is cut:

    parse (s ++ t) = (parse s).extend t                       (Format.parse_append)

`Format.Encodes a b`: the symbols `b` are read as the item `a`, whatever follows.
A stream of encodings is parsed into the items (`parse_flatMap`); an encoding that was
cut short is not read as anything (`front_of_cut`).
-/

namespace Stream

/-- What stands at the front of a stream. -/
inductive Front (α ε : Type)
  /-- too short to tell -/
  | more
  | bad (e : ε)
  /-- an item, `n` symbols long -/
  | item (a : α) (n : Nat)

structure Format (σ α ε : Type) where
  front : List σ → Front α ε
  item_pos : ∀ {s a n}, front s = .item a n → 0 < n
  item_le : ∀ {s a n}, front s = .item a n → n ≤ s.length
  stable : ∀ {s} t, front s ≠ .more → front (s ++ t) = front s

/-- The items of a stream, what stopped the reading, and the symbols from there on. -/
structure Parsed (σ α ε : Type) where
  items : List α
  error : Option ε
  rest : List σ

namespace Format

variable {σ α ε : Type} (F : Format σ α ε) {s : List σ} {a : α} {n : Nat} {e : ε}

theorem length_drop_lt (h : F.front s = .item a n) : (s.drop n).length < s.length := by
  have h1 := F.item_pos h
  have h2 := F.item_le h
  rw [List.length_drop]
  omega

/-- Read items from the front for as long as there are any. -/
def parse (s : List σ) : Parsed σ α ε :=
  match h : F.front s with
  | .more => ⟨[], none, s⟩
  | .bad e => ⟨[], some e, s⟩
  | .item a n =>
    have := F.length_drop_lt h
    let r := parse (s.drop n)
    ⟨a :: r.items, r.error, r.rest⟩
termination_by s.length
decreasing_by exact this

variable {F}

theorem parse_more (h : F.front s = .more) : F.parse s = ⟨[], none, s⟩ := by
  rw [parse]
  split
  · rfl
  · next he => rw [h] at he; cases he
  · next he => rw [h] at he; cases he

theorem parse_bad (h : F.front s = .bad e) : F.parse s = ⟨[], some e, s⟩ := by
  rw [parse]
  split
  · next he => rw [h] at he; cases he
  · next he => rw [h] at he; cases he; rfl
  · next he => rw [h] at he; cases he

theorem parse_item (h : F.front s = .item a n) :
    F.parse s = ⟨a :: (F.parse (s.drop n)).items, (F.parse (s.drop n)).error, (F.parse (s.drop n)).rest⟩ := by
  rw [parse]
  split
  · next he => rw [h] at he; cases he
  · next he => rw [h] at he; cases he
  · next he => rw [h] at he; cases he; rfl

/-- Induction along a parse. -/
theorem parse_induction {motive : List σ → Prop} (hmore : ∀ s, F.front s = .more → motive s)
    (hbad : ∀ s e, F.front s = .bad e → motive s)
    (hitem : ∀ s a n, F.front s = .item a n → motive (s.drop n) → motive s) (s : List σ) : motive s := by
  induction hl : s.length using Nat.strongRecOn generalizing s with
  | _ l ih =>
    cases h : F.front s with
    | more => exact hmore s h
    | bad e => exact hbad s e h
    | item a n => exact hitem s a n h (ih _ (hl ▸ F.length_drop_lt h) _ rfl)

end Format

/-- Go on with more symbols; what was bad stays bad. -/
def Parsed.extend {σ α ε : Type} (F : Format σ α ε) (r : Parsed σ α ε) (t : List σ) : Parsed σ α ε :=
  match r.error with
  | some e => ⟨r.items, some e, r.rest ++ t⟩
  | none =>
    let r' := F.parse (r.rest ++ t)
    ⟨r.items ++ r'.items, r'.error, r'.rest⟩

namespace Format

variable {σ α ε : Type} {F : Format σ α ε}

/-- **Cutting.**  A stream may be parsed in two pieces. -/
theorem parse_append (s t : List σ) : F.parse (s ++ t) = (F.parse s).extend F t := by
  induction s using parse_induction (F := F) with
  | hmore s h => rw [parse_more h]; rfl
  | hbad s e h =>
    have h' : F.front (s ++ t) = .bad e := by rw [F.stable t (by rw [h]; simp), h]
    rw [parse_bad h, parse_bad h']
    rfl
  | hitem s a n h ih =>
    have h' : F.front (s ++ t) = .item a n := by rw [F.stable t (by rw [h]; simp), h]
    have hdrop : (s ++ t).drop n = s.drop n ++ t := List.drop_append_of_le_length (F.item_le h)
    rw [parse_item h, parse_item h', hdrop, ih]
    unfold Parsed.extend
    split
    · next e he => simp only [he]
    · next he => simp only [he, List.cons_append]

/-- An error stands at the front of what is left. -/
theorem front_of_error {e : ε} (s : List σ) (h : (F.parse s).error = some e) :
    F.front (F.parse s).rest = .bad e := by
  induction s using parse_induction (F := F) with
  | hmore s hf => rw [parse_more hf] at h; cases h
  | hbad s e' hf =>
    rw [parse_bad hf] at h ⊢
    cases h
    exact hf
  | hitem s a n hf ih =>
    rw [parse_item hf] at h ⊢
    exact ih h

/-- Where reading stopped without an error there is too little to tell. -/
theorem front_rest (s : List σ) (h : (F.parse s).error = none) : F.front (F.parse s).rest = .more := by
  induction s using parse_induction (F := F) with
  | hmore s hf => rwa [parse_more hf]
  | hbad s e hf => rw [parse_bad hf] at h; cases h
  | hitem s a n hf ih =>
    rw [parse_item hf] at h ⊢
    exact ih h

/-! ## Encodings -/

/-- The symbols `b` stand for `a`, whatever follows. -/
def Encodes (F : Format σ α ε) (a : α) (b : List σ) : Prop := ∀ t, F.front (b ++ t) = .item a b.length

theorem parse_encoded {a : α} {b : List σ} (h : F.Encodes a b) (t : List σ) :
    F.parse (b ++ t) = ⟨a :: (F.parse t).items, (F.parse t).error, (F.parse t).rest⟩ := by
  rw [parse_item (h t), List.drop_left]

/-- A stream of encodings. -/
theorem parse_flatMap {encode : α → List σ} (items : List α) (h : ∀ a ∈ items, F.Encodes a (encode a))
    (t : List σ) : F.parse (items.flatMap encode ++ t) =
      ⟨items ++ (F.parse t).items, (F.parse t).error, (F.parse t).rest⟩ := by
  induction items with
  | nil => rfl
  | cons a items ih =>
    obtain ⟨ha, hs⟩ := List.forall_mem_cons.mp h
    rw [List.flatMap_cons, List.append_assoc, parse_encoded ha, ih hs]
    rfl

/-- A piece of an encoding is not read as anything. -/
theorem front_of_cut {a : α} {b p : List σ} (h : F.Encodes a b) (hp : p <+: b) (hlt : p.length < b.length) :
    F.front p = .more := by
  by_contra hne
  obtain ⟨t, rfl⟩ := hp
  have he := h []
  rw [List.append_nil, F.stable t hne] at he
  have := F.item_le he
  omega

theorem parse_cut {a : α} {b p : List σ} (h : F.Encodes a b) (hp : p <+: b) (hlt : p.length < b.length) :
    F.parse p = ⟨[], none, p⟩ := parse_more (front_of_cut h hp hlt)

end Format

end Stream
