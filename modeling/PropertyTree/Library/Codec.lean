import Mathlib

/-!
# Codecs

A `Decoder` reads a value from the front of a list and gives the rest back, or fails.  What it reads
is described by a relation between values and words: `Recognizes d R` says that `d` reads the value
`a` exactly where the list begins with a word that `R` relates to `a`.  The rules below compute that
relation for a decoder from those of its parts.  A `Codec` is a decoder with an encoder, and an exact
one reads back what the encoder writes and nothing else.
-/

namespace Library

/-- Reads a value from the front of a list. -/
abbrev Decoder (β α : Type) : Type := StateT (List β) Option α

namespace Decoder

variable {α β γ : Type} {d : Decoder β α} {e : Decoder β γ} {R R' : α → List β → Prop}
  {S : γ → List β → Prop}

/-- `d` reads the values of the words of `R`, and fails on everything else. -/
def Recognizes (d : Decoder β α) (R : α → List β → Prop) : Prop :=
  ∀ bs a rest, d.run bs = some (a, rest) ↔ ∃ w, R a w ∧ bs = w ++ rest

theorem Recognizes.congr (h : d.Recognizes R) (hR : ∀ a w, R a w ↔ R' a w) : d.Recognizes R' := by
  intro bs a rest
  rw [h bs a rest]
  simp only [hR]

/-- A word is read with whatever follows it. -/
theorem Recognizes.run_append (h : d.Recognizes R) {a : α} {w : List β} (ha : R a w)
    (rest : List β) : d.run (w ++ rest) = some (a, rest) :=
  (h _ _ _).mpr ⟨w, ha, rfl⟩

/-- No word of a value is the beginning of another word. -/
theorem Recognizes.prefix_free (h : d.Recognizes R) {a b : α} {v w : List β} (ha : R a v)
    (hb : R b w) (hvw : v <+: w) : a = b ∧ v = w := by
  obtain ⟨rest, rfl⟩ := hvw
  have hread := h.run_append hb []
  rw [List.append_nil, h.run_append ha rest] at hread
  obtain ⟨rfl, rfl⟩ := Prod.mk.inj (Option.some.inj hread)
  exact ⟨rfl, (List.append_nil v).symm⟩

theorem recognizes_pure (a : α) :
    (pure a : Decoder β α).Recognizes fun b w => b = a ∧ w = [] := by
  intro bs b rest
  rw [StateT.run_pure]
  constructor
  · intro h
    obtain ⟨rfl, rfl⟩ := Prod.mk.inj (Option.some.inj h)
    exact ⟨[], ⟨rfl, rfl⟩, rfl⟩
  · rintro ⟨_, ⟨rfl, rfl⟩, rfl⟩
    rfl

/-- One decoder after another reads the words of the one followed by the words of the other. -/
theorem Recognizes.bind {f : α → Decoder β γ} {S : α → γ → List β → Prop} (h : d.Recognizes R)
    (hf : ∀ a, (f a).Recognizes (S a)) :
    (d >>= f).Recognizes fun c w => ∃ a v v', R a v ∧ S a c v' ∧ w = v ++ v' := by
  intro bs c rest
  rw [StateT.run_bind]
  constructor
  · intro hrun
    obtain ⟨⟨a, mid⟩, ha, hc⟩ := Option.bind_eq_some_iff.mp hrun
    obtain ⟨v, hv, rfl⟩ := (h _ _ _).mp ha
    obtain ⟨v', hv', rfl⟩ := (hf a _ _ _).mp hc
    exact ⟨v ++ v', ⟨a, v, v', hv, hv', rfl⟩, (List.append_assoc ..).symm⟩
  · rintro ⟨_, ⟨a, v, v', hv, hv', rfl⟩, rfl⟩
    rw [List.append_assoc]
    exact Option.bind_eq_some_iff.mpr ⟨_, h.run_append hv _, (hf a).run_append hv' _⟩

theorem Recognizes.map (h : d.Recognizes R) (f : α → γ) :
    (f <$> d).Recognizes fun c w => ∃ a, R a w ∧ c = f a := by
  rw [map_eq_pure_bind]
  refine (h.bind fun a => recognizes_pure (f a)).congr fun c w => ⟨?_, ?_⟩
  · rintro ⟨a, v, v', hv, ⟨rfl, rfl⟩, rfl⟩
    exact ⟨a, (List.append_nil v).symm ▸ hv, rfl⟩
  · rintro ⟨a, ha, rfl⟩
    exact ⟨a, w, [], ha, ⟨rfl, rfl⟩, (List.append_nil w).symm⟩

/-- `n` values, one after the other. -/
def many (d : Decoder β α) : ℕ → Decoder β (List α)
  | 0 => pure []
  | n + 1 => do
    let a ← d
    let l ← d.many n
    pure (a :: l)

/-- The words of the elements of a list, one after the other. -/
inductive Words (R : α → List β → Prop) : List α → List β → Prop
  | nil : Words R [] []
  | cons {a : α} {l : List α} {v w : List β} (ha : R a v) (hl : Words R l w) :
      Words R (a :: l) (v ++ w)

theorem recognizes_many (h : d.Recognizes R) (n : ℕ) :
    (d.many n).Recognizes fun l w => l.length = n ∧ Words R l w := by
  induction n with
  | zero =>
    refine (recognizes_pure []).congr fun l w => ⟨?_, ?_⟩
    · rintro ⟨rfl, rfl⟩
      exact ⟨rfl, .nil⟩
    · rintro ⟨hlen, hw⟩
      cases hw with
      | nil => exact ⟨rfl, rfl⟩
      | cons => cases hlen
  | succ n ih =>
    refine (h.bind fun a => ih.bind fun l => recognizes_pure (a :: l)).congr fun l w => ⟨?_, ?_⟩
    · rintro ⟨a, v, _, ha, ⟨l, w, _, ⟨rfl, hl⟩, ⟨rfl, rfl⟩, rfl⟩, rfl⟩
      rw [List.append_nil]
      exact ⟨rfl, .cons ha hl⟩
    · rintro ⟨hlen, hw⟩
      cases hw with
      | nil => cases hlen
      | @cons a l v w ha hl =>
        refine ⟨a, v, w, ha, ⟨l, w, [], ⟨Nat.succ.inj hlen, hl⟩, ⟨rfl, rfl⟩, ?_⟩, rfl⟩
        exact (List.append_nil w).symm

/-- The words of a list whose elements have one word each. -/
theorem words_iff {P : α → Prop} {f : α → List β} {l : List α} {w : List β} :
    Words (fun a v => P a ∧ v = f a) l w ↔ (∀ a ∈ l, P a) ∧ w = l.flatMap f := by
  constructor
  · intro h
    induction h with
    | nil => exact ⟨by simp, rfl⟩
    | cons ha hl ih =>
      obtain ⟨hP, rfl⟩ := ha
      obtain ⟨hall, rfl⟩ := ih
      exact ⟨List.forall_mem_cons.mpr ⟨hP, hall⟩, rfl⟩
  · rintro ⟨hall, rfl⟩
    induction l with
    | nil => exact .nil
    | cons a l ih =>
      obtain ⟨ha, hl⟩ := List.forall_mem_cons.mp hall
      exact .cons ⟨ha, rfl⟩ (ih hl)

/-- Every element of a list has a word among those of the list. -/
theorem Words.exists_of_mem {l : List α} {w : List β} (h : Words R l w) {a : α} (ha : a ∈ l) :
    ∃ v, R a v ∧ v.length ≤ w.length := by
  induction h with
  | nil => cases ha
  | @cons b l v w hb hl ih =>
    rcases List.mem_cons.mp ha with rfl | ha
    · exact ⟨v, hb, by simp⟩
    · obtain ⟨v', hv', hle⟩ := ih ha
      refine ⟨v', hv', hle.trans ?_⟩
      simp

end Decoder

/-- How the values of a type are written and read. -/
structure Codec (β α : Type) where
  encode : α → List β
  decode : Decoder β α

namespace Codec

variable {α β γ : Type} {x : Codec β α} {y : Codec β γ} {size : Codec β ℕ}
  {d : Decoder β α} {R : α → List β → Prop} {P : α → Prop} {Q : γ → Prop} {N : ℕ → Prop}

/-- Of the values with `P`, and no others, what is written is read. -/
def Exact (x : Codec β α) (P : α → Prop) : Prop :=
  x.decode.Recognizes fun a w => P a ∧ w = x.encode a

/-- What is read and then wrapped is what is written before. -/
theorem Exact.map (hx : x.Exact P) (f : α → γ) :
    (f <$> x.decode).Recognizes fun c w => ∃ a, P a ∧ c = f a ∧ w = x.encode a := by
  refine (Decoder.Recognizes.map hx f).congr fun c w => ⟨?_, ?_⟩
  · rintro ⟨a, ⟨ha, rfl⟩, rfl⟩
    exact ⟨a, ha, rfl, rfl⟩
  · rintro ⟨a, ha, rfl, rfl⟩
    exact ⟨a, ⟨ha, rfl⟩, rfl⟩

/-- One value after another. -/
def pair (x : Codec β α) (y : Codec β γ) : Codec β (α × γ) where
  encode a := x.encode a.1 ++ y.encode a.2
  decode := do
    let a ← x.decode
    let c ← y.decode
    pure (a, c)

theorem Exact.pair (hx : x.Exact P) (hy : y.Exact Q) :
    (x.pair y).Exact fun a => P a.1 ∧ Q a.2 := by
  refine (Decoder.Recognizes.bind hx fun a => Decoder.Recognizes.bind hy fun c =>
    Decoder.recognizes_pure (a, c)).congr fun ac w => ⟨?_, ?_⟩
  · rintro ⟨a, _, _, ⟨ha, rfl⟩, ⟨c, _, _, ⟨hc, rfl⟩, ⟨rfl, rfl⟩, rfl⟩, rfl⟩
    rw [List.append_nil]
    exact ⟨⟨ha, hc⟩, rfl⟩
  · rintro ⟨⟨ha, hc⟩, rfl⟩
    exact ⟨ac.1, _, _, ⟨ha, rfl⟩, ⟨ac.2, _, [], ⟨hc, rfl⟩, ⟨rfl, rfl⟩, rfl⟩,
      by simp [Codec.pair]⟩

/-- A list behind the number of its elements. -/
def counted (size : Codec β ℕ) (x : Codec β α) : Codec β (List α) where
  encode l := size.encode l.length ++ l.flatMap x.encode
  decode := size.decode >>= x.decode.many

theorem recognizes_counted (hsize : size.Exact N) (hd : d.Recognizes R) :
    (size.decode >>= d.many).Recognizes fun l w =>
      N l.length ∧ ∃ v, Decoder.Words R l v ∧ w = size.encode l.length ++ v := by
  refine (Decoder.Recognizes.bind hsize fun n => Decoder.recognizes_many hd n).congr
    fun l w => ⟨?_, ?_⟩
  · rintro ⟨n, _, v, ⟨hn, rfl⟩, ⟨rfl, hl⟩, rfl⟩
    exact ⟨hn, v, hl, rfl⟩
  · rintro ⟨hn, v, hl, rfl⟩
    exact ⟨l.length, _, v, ⟨hn, rfl⟩, ⟨rfl, hl⟩, rfl⟩

theorem Exact.counted (hsize : size.Exact N) (hx : x.Exact P) :
    (size.counted x).Exact fun l => N l.length ∧ ∀ a ∈ l, P a := by
  refine (recognizes_counted hsize hx).congr fun l w => ⟨?_, ?_⟩
  · rintro ⟨hn, v, hv, rfl⟩
    obtain ⟨hall, rfl⟩ := Decoder.words_iff.mp hv
    exact ⟨⟨hn, hall⟩, rfl⟩
  · rintro ⟨⟨hn, hall⟩, rfl⟩
    exact ⟨hn, _, Decoder.words_iff.mpr ⟨hall, rfl⟩, rfl⟩

/-! ## Words of bytes -/

/-- The `width` lower bytes of a number, the lowest one first. -/
def leBytes : ℕ → ℕ → List UInt8
  | 0, _ => []
  | width + 1, n => UInt8.ofNat n :: leBytes width (n / 256)

/-- The number that bytes make up, the lowest one first. -/
def leValue (bs : List UInt8) : ℕ :=
  bs.foldr (fun b v => b.toNat + 256 * v) 0

@[simp] theorem length_leBytes (width n : ℕ) : (leBytes width n).length = width := by
  induction width generalizing n with
  | zero => rfl
  | succ width ih => rw [leBytes, List.length_cons, ih]

theorem leValue_leBytes {width n : ℕ} (h : n < 256 ^ width) : leValue (leBytes width n) = n := by
  induction width generalizing n with
  | zero =>
    rw [pow_zero, Nat.lt_one_iff] at h
    rw [h]
    rfl
  | succ width ih =>
    have hdiv : n / 256 < 256 ^ width := Nat.div_lt_of_lt_mul (by rwa [pow_succ'] at h)
    change (UInt8.ofNat n).toNat + 256 * leValue (leBytes width (n / 256)) = n
    rw [ih hdiv, UInt8.toNat_ofNat']
    exact Nat.mod_add_div n 256

theorem leBytes_leValue (bs : List UInt8) : leBytes bs.length (leValue bs) = bs := by
  induction bs with
  | nil => rfl
  | cons b bs ih =>
    have hb := b.toNat_lt
    have hval : leValue (b :: bs) = b.toNat + 256 * leValue bs := rfl
    have hdiv : (b.toNat + 256 * leValue bs) / 256 = leValue bs := by omega
    have hmod : UInt8.ofNat (b.toNat + 256 * leValue bs) = b := by
      rw [← UInt8.toNat_inj, UInt8.toNat_ofNat']
      omega
    rw [List.length_cons, hval, leBytes, hdiv, hmod, ih]

/-- A number below `bound` in `width` bytes. -/
def word (width bound : ℕ) : Codec UInt8 ℕ where
  encode n := leBytes width n
  decode bs :=
    if width ≤ bs.length ∧ leValue (bs.take width) < bound then
      some (leValue (bs.take width), bs.drop width)
    else none

theorem exact_word {width bound : ℕ} (h : bound ≤ 256 ^ width) :
    (word width bound).Exact fun n => n < bound := by
  intro bs n rest
  change (if width ≤ bs.length ∧ leValue (bs.take width) < bound then
      some (leValue (bs.take width), bs.drop width) else none) = some (n, rest) ↔ _
  constructor
  · intro hrun
    split_ifs at hrun with hlen
    obtain ⟨rfl, rfl⟩ := Prod.mk.inj (Option.some.inj hrun)
    refine ⟨bs.take width, ⟨hlen.2, ?_⟩, (List.take_append_drop width bs).symm⟩
    have htake : (bs.take width).length = width := List.length_take_of_le hlen.1
    have hbytes := leBytes_leValue (bs.take width)
    rw [htake] at hbytes
    exact hbytes.symm
  · rintro ⟨_, ⟨hn, rfl⟩, rfl⟩
    have htake : ((word width bound).encode n ++ rest).take width = leBytes width n := by
      rw [List.take_append_of_le_length (by simp [word]), List.take_of_length_le (by simp [word])]
      rfl
    have hdrop : ((word width bound).encode n ++ rest).drop width = rest := by
      rw [List.drop_append_of_le_length (by simp [word]), List.drop_of_length_le (by simp [word]),
        List.nil_append]
    have hval := leValue_leBytes (hn.trans_le h)
    rw [htake, hdrop, hval, if_pos ⟨by simp [word], hn⟩]

/-- The values of another type with the same words. -/
def conv (x : Codec β α) (f : α → γ) (g : γ → α) : Codec β γ where
  encode c := x.encode (g c)
  decode := f <$> x.decode

theorem Exact.conv (hx : x.Exact P) {f : α → γ} {g : γ → α} (hfg : ∀ c, f (g c) = c)
    (hgf : ∀ a, P a → g (f a) = a) (hg : ∀ c, P (g c)) : (x.conv f g).Exact fun _ => True := by
  refine (hx.map f).congr fun c w => ⟨?_, ?_⟩
  · rintro ⟨a, ha, rfl, rfl⟩
    refine ⟨trivial, ?_⟩
    change x.encode a = x.encode (g (f a))
    rw [hgf a ha]
  · rintro ⟨-, rfl⟩
    exact ⟨g c, hg c, (hfg c).symm, rfl⟩

/-- A list that ends with the first `stop`. -/
def terminated [DecidableEq β] (stop : β) : Codec β (List β) where
  encode l := l ++ [stop]
  decode bs :=
    match bs.dropWhile (· ≠ stop) with
    | [] => none
    | _ :: rest => some (bs.takeWhile (· ≠ stop), rest)

theorem exact_terminated [DecidableEq β] (stop : β) :
    (terminated stop).Exact fun l => stop ∉ l := by
  intro bs l rest
  change (match bs.dropWhile (· ≠ stop) with
    | [] => none
    | _ :: rest => some (bs.takeWhile (· ≠ stop), rest)) = some (l, rest) ↔ _
  constructor
  · intro hrun
    split at hrun
    · cases hrun
    · rename_i b rest' hdrop
      obtain ⟨rfl, rfl⟩ := Prod.mk.inj (Option.some.inj hrun)
      have hb : b = stop := by
        have hhead := List.head?_dropWhile_not (· ≠ stop) bs
        rw [hdrop] at hhead
        simpa using hhead
      refine ⟨_, ⟨fun hmem => ?_, rfl⟩, ?_⟩
      · simpa using List.mem_takeWhile_imp hmem
      · have happ : bs.takeWhile (· ≠ stop) ++ bs.dropWhile (· ≠ stop) = bs :=
          List.takeWhile_append_dropWhile
        rw [hdrop, hb] at happ
        rw [terminated, List.append_assoc, List.singleton_append, happ]
  · rintro ⟨_, ⟨hl, rfl⟩, rfl⟩
    have hne : ∀ b ∈ l, decide (b ≠ stop) = true := by
      intro b hb
      simp only [ne_eq, decide_not, Bool.not_eq_eq_eq_not, Bool.not_true, decide_eq_false_iff_not]
      rintro rfl
      exact hl hb
    rw [terminated, List.append_assoc, List.singleton_append, List.dropWhile_append_of_pos hne,
      List.takeWhile_append_of_pos hne]
    simp

/-! ## How much is written -/

@[simp] theorem length_encode_pair (a : α × γ) :
    ((x.pair y).encode a).length = (x.encode a.1).length + (y.encode a.2).length :=
  List.length_append

@[simp] theorem length_encode_counted (l : List α) : ((size.counted x).encode l).length =
    (size.encode l.length).length + (l.map fun a => (x.encode a).length).sum := by
  simp only [counted, List.length_append, List.length_flatMap]

@[simp] theorem length_encode_word (width bound n : ℕ) : ((word width bound).encode n).length = width :=
  length_leBytes width n

@[simp] theorem length_encode_terminated [DecidableEq β] (stop : β) (l : List β) :
    ((terminated stop).encode l).length = l.length + 1 :=
  List.length_append

end Codec

end Library
