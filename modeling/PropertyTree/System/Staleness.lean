import PropertyTree.System.Places

/-!
# Ids that are used again

`waitTransaction` erases the entry of its id when it has got a response, and leaves it where it is
when the wait ends by the timeout.  `Watched` records the ids whose waits have ended so: as long as
none of them is given to another request, and no id is given to two calls that wait at the same
time, every id that is entered is new in `mTransactions`, and every call gets its own response.  After
65535 calls the id of one that has timed out is drawn again, the entry is found in its place with the
late response, and the new call returns with that.
-/

namespace PropertyTree.System

open Library Server Client PropertyTreeMessages

/-- A system with the ids of the calls that have ended by their timeout, and their connections. -/
structure Watched where
  system : System
  timedOut : List (Conn × UInt16)

namespace Watched

/-- The system before the first client. -/
def init : Watched :=
  ⟨.init, []⟩

/-- The ids a step gives up by a timeout. -/
def abandoned (s : System) : System.Action → List (Conn × UInt16)
  | .client c (.timeout i) =>
    (((s.client c).wait i).map fun x => (c, x.1)).toList
  | _ => []

/-- One step of the system, with the id it gives up. -/
def step (w : Watched) (a : System.Action) : Option Watched :=
  (w.system.step a).map fun s => ⟨s, w.timedOut ++ abandoned w.system a⟩

/-- The steps, as a relation. -/
abbrev Step : Watched → System.Action → Watched → Prop :=
  Follows step

/-- The id thread `i` of the client on `c` is about to enter. -/
def enters (w : Watched) (c : Conn) (i : ThreadId) : Option UInt16 :=
  ((w.system.client c).threads[i]?).bind fun th => th.stage.id

/-- Whether the id `t` of the client on `c` belongs to a call that has timed out, or to one that
waits. -/
def idUsed (w : Watched) (c : Conn) (t : UInt16) : Bool :=
  w.timedOut.contains (c, t) ||
    (w.system.client c).threads.toList.any fun e => e.2.stage.wait.any fun x => x.1 == t

/-- The id that is entered belongs to no other call. -/
def IdUnused (w : Watched) : System.Action → Prop
  | .client c (.send i) => (w.enters c i).any (w.idUsed c) = false
  | _ => True

instance (w : Watched) (a : System.Action) : Decidable (w.IdUnused a) :=
  match a with
  | .client c (.send i) => inferInstanceAs (Decidable ((w.enters c i).any (w.idUsed c) = false))
  | .client _ (.start _ _) | .client _ (.fetchId _) | .client _ .read | .client _ (.take _)
  | .client _ (.timeout _) | .client _ (.erase _) | .client _ (.proceed _) | .client _ .update
  | .client _ (.setup _) | .client _ (.free _) | .client _ .close | .connect _ | .serve _
  | .disconnect _ => .isTrue trivial

/-- An id that is not used belongs to no call that has timed out, and to none that waits. -/
theorem not_used {w : Watched} {c : Conn} {i : ThreadId} {t : UInt16}
    (h : w.IdUnused (.client c (.send i)))
    (ht : ((w.system.client c).threads[i]?).bind (fun th => th.stage.id) = some t) :
    (c, t) ∉ w.timedOut ∧ ∀ j y, (w.system.client c).wait j ≠ some (t, y) := by
  simp only [IdUnused, enters, ht, Option.any_some, idUsed, Bool.or_eq_false_iff,
    List.any_eq_false] at h
  refine ⟨fun hmem => by simp [hmem] at h, fun j y hj => ?_⟩
  obtain ⟨th, hth, hwait⟩ := Option.bind_eq_some_iff.mp hj
  refine h.2 _ (Std.ExtTreeMap.mem_toList_iff_getElem?_eq_some.mpr hth) ?_
  simp [hwait]

/-- A step of a client gives up ids of that client only. -/
theorem eq_of_mem_abandoned {s : System} {c d : Conn} {a : Client.Action} {t : UInt16}
    (h : (d, t) ∈ abandoned s (.client c a)) : d = c := by
  unfold abandoned at h
  split at h
  · rename_i ha
    cases ha
    simp only [Option.mem_toList, Option.map_eq_some_iff] at h
    obtain ⟨x, -, hx⟩ := h
    cases hx
    rfl
  · cases h

end Watched

/-- The requests a client sends are its own. -/
theorem eq_of_mem_requestsOf {c d : Conn} {sent : List Packet} {m : PropertyTreeMessage}
    (h : (d, m) ∈ requestsOf c sent) : d = c := by
  obtain ⟨p, -, hp⟩ := List.mem_filterMap.mp h
  split_ifs at hp
  cases hp
  rfl

variable {s s' : System} {w w' : Watched} {act : System.Action} {c d : Conn} {k k' : Client} {r : ℕ}
  {gone gone' : List (Conn × UInt16)}

/-! ## The invariant -/

/-- Every transaction of the client `k` on `c` belongs to one call that waits, and what is still to
come for that call, or has come, is the response to its request; except for the ids `gone`. -/
structure Owned (s : System) (gone : List (Conn × UInt16)) (c : Conn) (k : Client) : Prop where
  entry : ∀ {t : UInt16} {x}, k.mTransactions[t]? = some x →
    (c, t) ∈ gone ∨ ∃ i y, k.wait i = some (t, y)
  inj : ∀ {i j t y y'}, k.wait i = some (t, y) → k.wait j = some (t, y') → i = j
  live : ∀ {i t y}, k.wait i = some (t, y) → (c, t) ∉ gone
  coming : ∀ {r : ℕ} {t q}, s.requests[r]? = some (c, ⟨t, q⟩) → Underway s r ∨ r ∈ arriving k →
    (c, t) ∈ gone ∨ ∃ i, k.wait i = some (t, r, none)
  stored : ∀ {t : UInt16} {m : Tagged}, k.mTransactions[t]? = some ⟨true, m⟩ →
    (c, t) ∈ gone ∨ ∃ i m', k.wait i = some (t, m.tag, m')
  taken : ∀ {i t r m}, k.wait i = some (t, r, some m) →
    m.tag = r ∧ Responded s c ⟨m.tag, t, m.message⟩

/-- A client that a step leaves alone, apart from what it finds in its inbound queue. -/
theorem Owned.of_le (h : Owned s gone c k) (hs : Recorded s s') (hw : ∀ i, k'.wait i = k.wait i)
    (hx : k'.mTransactions = k.mTransactions)
    (hcoming : ∀ {r : ℕ} {t q}, s'.requests[r]? = some (c, ⟨t, q⟩) →
      Underway s' r ∨ r ∈ arriving k' →
        s.requests[r]? = some (c, ⟨t, q⟩) ∧ (Underway s r ∨ r ∈ arriving k)) :
    Owned s' gone c k' := by
  refine ⟨fun {t x} ht => ?_, fun {i j t y y'} hi hj => ?_, fun {i t y} hi => ?_,
    fun {r t q} hr hu => ?_, fun {t m} ht => ?_, fun {i t r m} hi => ?_⟩ <;>
    simp only [hw, hx] at *
  · exact h.entry ht
  · exact h.inj hi hj
  · exact h.live hi
  · obtain ⟨hr', hu'⟩ := hcoming hr hu
    exact h.coming hr' hu'
  · exact h.stored ht
  · exact (h.taken hi).imp_right fun hresp => hresp.mono hs

/-- Of the ids that have been given up only those of the client matter. -/
theorem Owned.congr (h : Owned s gone c k) (hg : ∀ t, (c, t) ∈ gone' ↔ (c, t) ∈ gone) :
    Owned s gone' c k := by
  refine ⟨fun ht => ?_, h.inj, fun hi => ?_, fun hr hu => ?_, fun ht => ?_, h.taken⟩ <;>
    simp only [hg]
  · exact h.entry ht
  · exact h.live hi
  · exact h.coming hr hu
  · exact h.stored ht

section Client

variable {a : Client.Action} {sent : List Packet} {i : ThreadId} {t : UInt16} {n : ℕ}

/-- A request is sent under a new id. -/
theorem Owned.send (h : Owned s gone c k) (hs : Recorded s s')
    (hnew : (c, t) ∉ gone ∧ ∀ j y, k.wait j ≠ some (t, y)) (hi : k.wait i = none)
    (hw : ∀ j, k'.wait j = if j = i then some (t, n, none) else k.wait j)
    (hx : k'.mTransactions = k.mTransactions.insertIfNew t .new)
    (hcoming : ∀ {r : ℕ} {t' q}, s'.requests[r]? = some (c, ⟨t', q⟩) →
      Underway s' r ∨ r ∈ arriving k' →
        s.requests[r]? = some (c, ⟨t', q⟩) ∧ (Underway s r ∨ r ∈ arriving k) ∨ r = n ∧ t' = t) :
    Owned s' gone c k' := by
  have hold : ∀ {j x}, k.wait j = some x → k'.wait j = some x := by
    intro j x hj
    rw [hw, if_neg (by rintro rfl; rw [hi] at hj; cases hj), hj]
  have hcases : ∀ {j x}, k'.wait j = some x → j = i ∧ x = (t, n, none) ∨ k.wait j = some x := by
    intro j x hj
    rw [hw] at hj
    split_ifs at hj with hji
    · cases hj
      exact .inl ⟨hji, rfl⟩
    · exact .inr hj
  have htrans : ∀ {t' : UInt16} {x}, k'.mTransactions[t']? = some x →
      t' = t ∧ x = .new ∨ k.mTransactions[t']? = some x := by
    intro t' x ht
    rw [hx, Std.ExtTreeMap.getElem?_insertIfNew] at ht
    split_ifs at ht with hnew
    · cases ht
      exact .inl ⟨by simpa using (Std.LawfulEqCmp.eq_of_compare hnew.1).symm, rfl⟩
    · exact .inr ht
  refine ⟨fun {t' x} ht => ?_, fun {j j' t' y y'} hj hj' => ?_, fun {j t' y} hj => ?_,
    fun {r t' q} hr hu => ?_, fun {t' m} ht => ?_, fun {j t' r m} hj => ?_⟩
  · rcases htrans ht with ⟨rfl, -⟩ | ht
    · exact .inr ⟨i, _, by rw [hw, if_pos rfl]⟩
    · exact (h.entry ht).imp_right fun ⟨j, y, hj⟩ => ⟨j, y, hold hj⟩
  · rcases hcases hj with ⟨rfl, hy⟩ | hj <;> rcases hcases hj' with ⟨rfl, hy'⟩ | hj'
    · rfl
    · cases hy
      exact absurd hj' (hnew.2 _ _)
    · cases hy'
      exact absurd hj (hnew.2 _ _)
    · exact h.inj hj hj'
  · rcases hcases hj with ⟨-, hy⟩ | hj
    · cases hy
      exact hnew.1
    · exact h.live hj
  · rcases hcoming hr hu with ⟨hr, hu⟩ | ⟨rfl, rfl⟩
    · exact (h.coming hr hu).imp_right fun ⟨j, hj⟩ => ⟨j, hold hj⟩
    · exact .inr ⟨i, by rw [hw, if_pos rfl]⟩
  · rcases htrans ht with ⟨-, hx⟩ | ht
    · cases hx
    · exact (h.stored ht).imp_right fun ⟨j, m', hj⟩ => ⟨j, m', hold hj⟩
  · rcases hcases hj with ⟨-, hy⟩ | hj
    · cases hy
    · exact (h.taken hj).imp_right fun hresp => hresp.mono hs

/-- The message of a satisfied transaction is taken. -/
theorem Owned.take {r : ℕ} {m : Tagged} (h : Owned s gone c k) (hs : Recorded s s')
    (hapart : Apart s c k) (hexcl : Exclusive s) (hkc : s.client c = k)
    (hi : k.wait i = some (t, r, none)) (hsat : k.mTransactions[t]? = some ⟨true, m⟩)
    (hw : ∀ j, k'.wait j = if j = i then some (t, r, some m) else k.wait j)
    (hx : k'.mTransactions = k.mTransactions)
    (hcoming : ∀ {r : ℕ} {t' q}, s'.requests[r]? = some (c, ⟨t', q⟩) →
      Underway s' r ∨ r ∈ arriving k' →
        s.requests[r]? = some (c, ⟨t', q⟩) ∧ (Underway s r ∨ r ∈ arriving k)) :
    Owned s' gone c k' := by
  -- the message is the response to the request of this call
  obtain rfl : m.tag = r := by
    rcases h.stored hsat with hgone | ⟨j, m', hj⟩
    · exact absurd hgone (h.live hi)
    · obtain rfl := h.inj hi hj
      rw [hi] at hj
      cases hj
      rfl
  have hstored : Stored (s.client c) m.tag := ⟨t, m, hkc ▸ hsat, rfl⟩
  have hkeys : ∀ {j t' y}, k'.wait j = some (t', y) → ∃ y', k.wait j = some (t', y') := by
    intro j t' y hj
    rw [hw] at hj
    split_ifs at hj with hji
    · cases hj
      exact ⟨_, hji ▸ hi⟩
    · exact ⟨y, hj⟩
  have hnumbers : ∀ {j t' r' m'}, k.wait j = some (t', r', m') → ∃ m'', k'.wait j = some (t', r', m'') := by
    intro j t' r' m' hj
    rw [hw]
    split_ifs with hji
    · rw [hji, hi] at hj
      cases hj
      exact ⟨_, rfl⟩
    · exact ⟨m', hj⟩
  refine ⟨fun {t' x} ht => ?_, fun {j j' t' y y'} hj hj' => ?_, fun {j t' y} hj => ?_,
    fun {r t' q} hr hu => ?_, fun {t' m'} ht => ?_, fun {j t' r m'} hj => ?_⟩
  · rw [hx] at ht
    refine (h.entry ht).imp_right fun ⟨j, y, hj⟩ => ?_
    obtain ⟨m'', hj'⟩ := hnumbers hj
    exact ⟨j, _, hj'⟩
  · obtain ⟨z, hz⟩ := hkeys hj
    obtain ⟨z', hz'⟩ := hkeys hj'
    exact h.inj hz hz'
  · obtain ⟨z, hz⟩ := hkeys hj
    exact h.live hz
  · obtain ⟨hr, hu⟩ := hcoming hr hu
    refine (h.coming hr hu).imp_right fun ⟨j, hj⟩ => ⟨j, ?_⟩
    rw [hw, if_neg, hj]
    rintro rfl
    rw [hi] at hj
    cases hj
    -- its response is in the transaction, and nowhere else
    rcases hu with hu | hu
    · exact hexcl.stored hstored hu
    · exact (hexcl.arriving (hkc ▸ hu)).2 hstored
  · rw [hx] at ht
    refine (h.stored ht).imp_right fun ⟨j, m'', hj⟩ => ?_
    obtain ⟨m₃, hj'⟩ := hnumbers hj
    exact ⟨j, m₃, hj'⟩
  · rw [hw] at hj
    split_ifs at hj with hji
    · cases hj
      exact ⟨rfl, ((hapart.transactions hsat).2 rfl).mono hs⟩
    · exact (h.taken hj).imp_right fun hresp => hresp.mono hs

/-- The entry of a call is erased. -/
theorem Owned.erase {r : ℕ} {m : Tagged} (h : Owned s gone c k) (hs : Recorded s s')
    (hi : k.wait i = some (t, r, some m))
    (hw : ∀ j, k'.wait j = if j = i then none else k.wait j)
    (hx : k'.mTransactions = k.mTransactions.erase t)
    (hcoming : ∀ {r : ℕ} {t' q}, s'.requests[r]? = some (c, ⟨t', q⟩) →
      Underway s' r ∨ r ∈ arriving k' →
        s.requests[r]? = some (c, ⟨t', q⟩) ∧ (Underway s r ∨ r ∈ arriving k)) :
    Owned s' gone c k' := by
  have hold : ∀ {j x}, k'.wait j = some x → j ≠ i ∧ k.wait j = some x := by
    intro j x hj
    rw [hw] at hj
    split_ifs at hj with hji
    exact ⟨hji, hj⟩
  have htrans : ∀ {t' : UInt16} {x}, k'.mTransactions[t']? = some x →
      t' ≠ t ∧ k.mTransactions[t']? = some x := by
    intro t' x ht
    rw [hx] at ht
    grind
  have hkeep : ∀ {j t' y}, k.wait j = some (t', y) → t' ≠ t → k'.wait j = some (t', y) := by
    intro j t' y hj hne
    rw [hw, if_neg, hj]
    rintro rfl
    rw [hi] at hj
    cases hj
    exact hne rfl
  refine ⟨fun {t' x} ht => ?_, fun {j j' t' y y'} hj hj' => ?_, fun {j t' y} hj => ?_,
    fun {r' t' q} hr hu => ?_, fun {t' m'} ht => ?_, fun {j t' r m'} hj => ?_⟩
  · obtain ⟨hne, ht⟩ := htrans ht
    exact (h.entry ht).imp_right fun ⟨j, y, hj⟩ => ⟨j, y, hkeep hj hne⟩
  · exact h.inj (hold hj).2 (hold hj').2
  · exact h.live (hold hj).2
  · obtain ⟨hr, hu⟩ := hcoming hr hu
    refine (h.coming hr hu).imp_right fun ⟨j, hj⟩ => ⟨j, hkeep hj ?_⟩
    rintro rfl
    obtain rfl := h.inj hi hj
    rw [hi] at hj
    cases hj
  · obtain ⟨hne, ht⟩ := htrans ht
    exact (h.stored ht).imp_right fun ⟨j, m', hj⟩ => ⟨j, m', hkeep hj hne⟩
  · exact (h.taken (hold hj).2).imp_right fun hresp => hresp.mono hs

/-- A call ends by its timeout, and gives its id up. -/
theorem Owned.timeout {y : ℕ × Option Tagged} (h : Owned s gone c k) (hs : Recorded s s')
    (hi : k.wait i = some (t, y)) (hw : ∀ j, k'.wait j = if j = i then none else k.wait j)
    (hx : k'.mTransactions = k.mTransactions)
    (hcoming : ∀ {r : ℕ} {t' q}, s'.requests[r]? = some (c, ⟨t', q⟩) →
      Underway s' r ∨ r ∈ arriving k' →
        s.requests[r]? = some (c, ⟨t', q⟩) ∧ (Underway s r ∨ r ∈ arriving k)) :
    Owned s' (gone ++ [(c, t)]) c k' := by
  have hold : ∀ {j x}, k'.wait j = some x → j ≠ i ∧ k.wait j = some x := by
    intro j x hj
    rw [hw] at hj
    split_ifs at hj with hji
    exact ⟨hji, hj⟩
  have hgone : ∀ {t'}, (c, t') ∈ gone ++ [(c, t)] ↔ (c, t') ∈ gone ∨ t' = t := by simp
  -- a call waits on unless it has the id that is given up
  have hkeep : ∀ {t' : UInt16} {P : ThreadId → Option (UInt16 × ℕ × Option Tagged) → Prop},
      (∀ j x, P j x → ∃ y, x = some (t', y)) →
      ((c, t') ∈ gone ∨ ∃ j, P j (k.wait j)) →
        (c, t') ∈ gone ++ [(c, t)] ∨ ∃ j, P j (k'.wait j) := by
    rintro t' P hP (hg | ⟨j, hj⟩)
    · exact .inl (hgone.mpr (.inl hg))
    · by_cases hji : j = i
      · subst hji
        obtain ⟨z, hz⟩ := hP _ _ hj
        rw [hi] at hz
        cases hz
        exact .inl (hgone.mpr (.inr rfl))
      · exact .inr ⟨j, by rwa [hw, if_neg hji]⟩
  refine ⟨fun {t' x} ht => ?_, fun {j j' t' y y'} hj hj' => ?_, fun {j t' y} hj => ?_,
    fun {r' t' q} hr hu => ?_, fun {t' m'} ht => ?_, fun {j t' r m'} hj => ?_⟩
  · exact hkeep (P := fun _ x => ∃ y, x = some (t', y)) (fun _ _ h => h) (h.entry (hx ▸ ht))
  · exact h.inj (hold hj).2 (hold hj').2
  · rw [hgone, not_or]
    refine ⟨h.live (hold hj).2, ?_⟩
    rintro rfl
    exact (hold hj).1 (h.inj (hold hj).2 hi)
  · obtain ⟨hr, hu⟩ := hcoming hr hu
    exact hkeep (P := fun _ x => x = some (t', r', none)) (fun _ _ h => ⟨_, h⟩) (h.coming hr hu)
  · exact hkeep (P := fun _ x => ∃ m'', x = some (t', m'.tag, m''))
      (fun _ _ ⟨m'', h⟩ => ⟨_, h⟩) (h.stored (hx ▸ ht))
  · exact (h.taken (hold hj).2).imp_right fun hresp => hresp.mono hs

/-- A response is put into its transaction. -/
theorem Owned.satisfy {p : Packet} {inbound : List Packet} (h : Owned s gone c k)
    (hs : Recorded s s') (hresp : Responded s c p) (hin : k.inbound = p :: inbound)
    (hw : ∀ j, k'.wait j = k.wait j)
    (hx : k'.mTransactions = k.mTransactions.insert p.message.transactionId ⟨true, p.body⟩)
    (hcoming : ∀ {r : ℕ} {t' q}, s'.requests[r]? = some (c, ⟨t', q⟩) →
      Underway s' r ∨ r ∈ arriving k' →
        s.requests[r]? = some (c, ⟨t', q⟩) ∧ (Underway s r ∨ r ∈ arriving k)) :
    Owned s' gone c k' := by
  have hmine : (c, p.message.transactionId) ∈ gone ∨
      ∃ i, k.wait i = some (p.message.transactionId, p.tag, none) := by
    obtain ⟨q, hq, -⟩ := hresp.request
    refine h.coming hq (.inr ?_)
    simp [arriving, hin, hresp.isServerInitiated]
  have htrans : ∀ {t' : UInt16} {x}, k'.mTransactions[t']? = some x →
      t' = p.message.transactionId ∧ x = ⟨true, p.body⟩ ∨ k.mTransactions[t']? = some x := by
    intro t' x ht
    rw [hx] at ht
    grind
  refine ⟨fun {t' x} ht => ?_, fun {j j' t' y y'} hj hj' => ?_, fun {j t' y} hj => ?_,
    fun {r' t' q} hr hu => ?_, fun {t' m'} ht => ?_, fun {j t' r m'} hj => ?_⟩ <;>
    simp only [hw] at *
  · rcases htrans ht with ⟨rfl, -⟩ | ht
    · exact hmine.imp_right fun hi => hi.imp fun i hi => ⟨_, hi⟩
    · exact h.entry ht
  · exact h.inj hj hj'
  · exact h.live hj
  · obtain ⟨hr, hu⟩ := hcoming hr hu
    exact h.coming hr hu
  · rcases htrans ht with ⟨rfl, hm⟩ | ht
    · cases hm
      exact hmine.imp_right fun hi => hi.imp fun i hi => ⟨_, hi⟩
    · exact h.stored ht
  · exact (h.taken hj).imp_right fun hresp => hresp.mono hs

/-- What is to come for a client is the response to a request that is on record. -/
theorem recorded_of_coming (hsound : Sound s) (hcorr : Correlated s) (hapart : Apart s c k)
    (hs : Recorded s s') {r : ℕ} {x : Conn × PropertyTreeMessage} (hr : s'.requests[r]? = some x)
    (hu : Underway s r ∨ r ∈ arriving k) : s.requests[r]? = some x := by
  obtain ⟨y, hy⟩ : ∃ y, s.requests[r]? = some y := by
    rcases hu with hu | hu
    · exact hu.recorded hsound hcorr
    · obtain ⟨p, -, rfl, hresp⟩ := responded_of_mem_arriving hapart hu
      obtain ⟨q, hq, -⟩ := hresp.request
      exact ⟨_, hq⟩
  rw [← hr, hs.requests hy, hy]

/-- What is still to come for a client after its step was to come before, or is the response to the
request that is sent. -/
theorem coming_of_client (hsound : Sound s) (hcorr : Correlated s) (hapart : Apart s d (s.client d))
    (hk : s.clients[c]? = some k) (hres : Client.StepResult k s.requests.length a k' sent)
    (hs : Recorded s s')
    (hs' : s' = { s with
      clients := s.clients.insert c { k' with outbound := k'.outbound ++ sent }
      requests := s.requests ++ requestsOf c sent
      answers := s.answers ++ answersOf c sent }) {r : ℕ} {t : UInt16} {q : PropertyTreeMessages}
    (hr : s'.requests[r]? = some (d, ⟨t, q⟩)) (hu : Underway s' r ∨ r ∈ arriving (s'.client d)) :
    s.requests[r]? = some (d, ⟨t, q⟩) ∧ (Underway s r ∨ r ∈ arriving (s.client d)) ∨
      r = s.requests.length ∧ (requestsOf c sent)[0]? = some (d, ⟨t, q⟩) := by
  have hold := fun hu => recorded_of_coming hsound hcorr hapart hs hr hu
  subst hs'
  rcases hu with hu | hu
  · rcases underway_of_client hsound hk hres hu with hu | rfl
    · exact .inl ⟨hold (.inl hu), .inl hu⟩
    · rw [List.getElem?_append_right le_rfl, Nat.sub_self] at hr
      exact .inr ⟨rfl, hr⟩
  · have hu' : r ∈ arriving (s.client d) := by
      rw [client_of_clients rfl d] at hu
      split_ifs at hu with hdc
      · rw [hdc, client_of_some hk]
        exact (arriving_of_change hres.transactionChange).subset hu
      · exact hu
    exact .inl ⟨hold (.inr hu'), .inr hu'⟩

/-- A step of the client keeps the invariant. -/
theorem Owned.client_step (h : Owned s gone c k) (hs : Recorded s s') (hapart : Apart s c k)
    (hexcl : Exclusive s) (hkc : s.client c = k)
    (hunused : ∀ i t, a = .send i → (k.threads[i]?).bind (fun th => th.stage.id) = some t →
      (c, t) ∉ gone ∧ ∀ j y, k.wait j ≠ some (t, y))
    (hread : a = .read → ∀ p ∈ k.inbound.head?, (rpcCall p).isSome = true →
      k.mTransactions[p.message.transactionId]? = none)
    (hchange : TransactionChange k k' n a sent)
    (hcoming : ∀ {r : ℕ} {t q}, s'.requests[r]? = some (c, ⟨t, q⟩) →
      Underway s' r ∨ r ∈ arriving k' →
        s.requests[r]? = some (c, ⟨t, q⟩) ∧ (Underway s r ∨ r ∈ arriving k) ∨
          r = n ∧ (requestsOf c sent)[0]? = some (c, ⟨t, q⟩)) :
    Owned s' (gone ++ Watched.abandoned s (.client c a)) c k' := by
  -- in a step that sends no request nothing new is to come
  have hsilent : (∀ q ∈ sent, q.message.message.isRequest = false) →
      ∀ {r : ℕ} {t q}, s'.requests[r]? = some (c, ⟨t, q⟩) → Underway s' r ∨ r ∈ arriving k' →
        s.requests[r]? = some (c, ⟨t, q⟩) ∧ (Underway s r ∨ r ∈ arriving k) := by
    intro hno r t q hr hu
    have hnil : requestsOf c sent = [] := by
      rw [requestsOf, List.filterMap_eq_nil_iff]
      intro q hq
      simp [hno q hq]
    exact (hcoming hr hu).resolve_right fun hnew => by simp [hnil] at hnew
  have hnone : (∀ i, a ≠ .timeout i) → Watched.abandoned s (.client c a) = [] := by
    intro ha
    cases a <;> first | rfl | exact absurd rfl (ha _)
  have hwait : ∀ {i th}, k.threads[i]? = some th → k.wait i = th.stage.wait := wait_of_getElem?
  cases hchange with
  | other a ha hin hx hid hres =>
    rw [hnone ha, List.append_nil]
    exact h.of_le hs (wait_congr hid) hx (hsilent (by simp))
  | draw i call stage q ht hstage hid hin hx hth =>
    rw [hnone (by simp), List.append_nil]
    refine h.of_le hs (fun j => ?_) hx (hsilent (by simp))
    rw [wait_of_insert hth]
    split_ifs with hji
    · rw [hji, hwait ht, Stage.wait_of_id hstage]
      rfl
    · rfl
  | send i call q trId ht hin hx hth =>
    rw [hnone (by simp), List.append_nil]
    refine h.send hs (hunused i trId rfl (by rw [ht]; rfl)) (hwait ht) (wait_of_insert hth) hx
      fun {r t' q'} hr hu => (hcoming hr hu).imp_right fun hnew => ⟨hnew.1, ?_⟩
    have hq := hnew.2
    simp only [requestsOf, List.filterMap_cons, List.filterMap_nil] at hq
    split_ifs at hq
    · cases hq
      rfl
    · cases hq
  | take i call trId r response ht hsat hin hx hth =>
    rw [hnone (by simp), List.append_nil]
    exact h.take hs hapart hexcl hkc (hwait ht) hsat (wait_of_insert hth) hx (hsilent (by simp))
  | timeout i call trId r ht hin hx hth =>
    rw [show Watched.abandoned s (.client c (.timeout i)) = [(c, trId)] by
      simp [Watched.abandoned, hkc, hwait ht, Stage.wait]]
    exact h.timeout hs (hwait ht) (wait_of_erase hth) hx (hsilent (by simp))
  | erase i call trId r response ht hin hx hth =>
    rw [hnone (by simp), List.append_nil]
    exact h.erase hs (hwait ht) (wait_of_insert hth) hx (hsilent (by simp))
  | satisfy p x hin hsat hx hth =>
    rw [hnone (by simp), List.append_nil]
    have hresp := responded_of_read hapart hin (by simp [hsat]) (hread rfl)
    exact h.satisfy hs hresp hin (fun j => by rw [wait, hth, wait]) hx (hsilent (by simp))
  | dispatch p sent hin hnone' hx hth hsent =>
    rw [hnone (by simp), List.append_nil]
    exact h.of_le hs (fun j => by rw [wait, hth, wait]) hx (hsilent hsent)

end Client

/-! ## The runs -/

/-- A step keeps the invariant of every client. -/
theorem owned_step (h : ∀ c, Owned w.system w.timedOut c (w.system.client c))
    (hsound : Sound w.system) (hcorr : Correlated w.system)
    (hapart : ∀ c, Apart w.system c (w.system.client c)) (hexcl : Exclusive w.system)
    (hgap : IdsApart w.system act) (hunused : w.IdUnused act) (hstep : StepResult w.system act s') :
    ∀ d, Owned s' (w.timedOut ++ Watched.abandoned w.system act) d (s'.client d) := by
  intro d
  have hrec := hstep.recorded
  obtain ⟨s, gone⟩ := w
  simp only at *
  cases hstep with
  | connect c hc =>
    have hcl := client_connect hc
    rw [show Watched.abandoned s (.connect c) = [] from rfl, List.append_nil, hcl]
    refine (h d).of_le hrec (fun _ => rfl) rfl fun {r t q} hr hu => ⟨hr, ?_⟩
    simpa only [Underway, hcl] using hu
  | client c a k k' sent hk hopen hres =>
    set s' : System := { s with
      clients := s.clients.insert c { k' with outbound := k'.outbound ++ sent }
      requests := s.requests ++ requestsOf c sent
      answers := s.answers ++ answersOf c sent } with hs'
    have hkc := client_of_some hk
    have hcl : s'.client d = if d = c then { k' with outbound := k'.outbound ++ sent } else
      s.client d := client_of_clients rfl d
    have hcoming := @coming_of_client s s' c d k k' a sent hsound hcorr (hapart d) hk hres hrec hs'
    by_cases hdc : d = c
    · subst hdc
      rw [if_pos rfl] at hcl
      rw [hcl, hkc] at hcoming
      have hread : a = .read → ∀ p ∈ k.inbound.head?, (rpcCall p).isSome = true →
          k.mTransactions[p.message.transactionId]? = none := by
        rintro rfl p hp hcall
        have := hgap p (hkc ▸ hp) hcall
        rwa [hkc] at this
      have hfree : ∀ i t, a = .send i → (k.threads[i]?).bind (fun th => th.stage.id) = some t →
          (d, t) ∉ gone ∧ ∀ j y, k.wait j ≠ some (t, y) := by
        rintro i t rfl ht
        have := Watched.not_used hunused (hkc ▸ ht)
        rwa [hkc] at this
      have hown := (hkc ▸ h d).client_step hrec (hkc ▸ hapart d) hexcl hkc hfree hread
        hres.transactionChange hcoming
      rw [hcl]
      exact ⟨hown.entry, hown.inj, hown.live, hown.coming, hown.stored, hown.taken⟩
    · rw [if_neg hdc] at hcl
      rw [hcl] at hcoming ⊢
      refine ((h d).of_le hrec (fun _ => rfl) rfl fun {r t q} hr hu => ?_).congr fun t => ?_
      · refine (hcoming hr hu).resolve_right fun hnew => hdc ?_
        exact eq_of_mem_requestsOf (List.mem_of_getElem? hnew.2)
      · rw [List.mem_append, or_iff_left]
        exact fun hmem => hdc (Watched.eq_of_mem_abandoned hmem)
  | serve c k p outbound server o hk hout ht hok =>
    change Owned (afterServe s c k p outbound server o) _ d
      ((afterServe s c k p outbound server o).client d)
    rw [show Watched.abandoned s (.serve c) = [] from rfl, List.append_nil]
    obtain ⟨ms, -, hcl⟩ := exists_client_afterServe hk p outbound server o d
    refine (h d).of_le hrec (fun i => by rw [hcl]; rfl) (by rw [hcl]) fun {r t q} hr hu => ⟨hr, ?_⟩
    rcases hu with hu | hu
    · exact .inl (underway_of_serve hsound hk hout hu)
    rw [hcl] at hu
    simp only [arriving, List.filterMap_append, List.mem_append] at hu
    rcases hu with hu | hu
    · exact .inr hu
    · -- what has just been sent answers the request that is handled
      obtain ⟨p', hp', hr'⟩ := List.mem_filterMap.mp hu
      obtain ⟨m, -, rfl⟩ := List.mem_map.mp hp'
      split_ifs at hr'
      cases hr'
      have hp : p ∈ k.outbound := hout ▸ List.mem_cons_self
      exact .inl (show Underway s p.tag from underway_of_outbound hsound hk hp)
  | disconnect c k server o hk hclosed hok =>
    rw [show Watched.abandoned s (.disconnect c) = [] from rfl, List.append_nil]
    rw [client_disconnect hk rfl]
    refine (h d).of_le hrec (fun _ => rfl) rfl fun {r t q} hr hu => ⟨hr, ?_⟩
    exact hu.imp_left (underway_of_disconnect hk rfl)

/-- A step of the watched system is one of the system. -/
theorem Watched.step_iff {w w' : Watched} {a : System.Action} :
    Watched.Step w a w' ↔ System.Step w.system a w'.system ∧
      w'.timedOut = w.timedOut ++ Watched.abandoned w.system a := by
  change Watched.step w a = some w' ↔ w.system.step a = some w'.system ∧ _
  obtain ⟨s', gone'⟩ := w'
  simp only [Watched.step, Option.map_eq_some_iff, Watched.mk.injEq]
  constructor
  · rintro ⟨u, hu, rfl, rfl⟩
    exact ⟨hu, rfl⟩
  · rintro ⟨hu, rfl⟩
    exact ⟨s', hu, rfl, rfl⟩

/-- The condition under which every call gets its own response. -/
def Settled (w : Watched) (a : System.Action) : Prop :=
  Undisturbed w.system a ∧ w.IdUnused a

instance (w : Watched) (a : System.Action) : Decidable (Settled w a) :=
  inferInstanceAs (Decidable (Undisturbed w.system a ∧ w.IdUnused a))

/-- The invariant holds in the runs whose steps meet the condition. -/
theorem owned_of_run {as : List System.Action}
    (h : Run (Guarded Settled Watched.Step) .init as w) (c : Conn) :
    Owned w.system w.timedOut c (w.system.client c) := by
  generalize hinit : Watched.init = w₀ at h
  induction h generalizing c with
  | nil =>
    subst hinit
    have hnew : Watched.init.system.client c = .new := by simp [client, Watched.init, init]
    have hwait : ∀ i, Client.new.wait i = none := by
      intro i
      cases hi : Client.new.wait i with
      | none => rfl
      | some x =>
        obtain ⟨th, hth, hx⟩ := Option.bind_eq_some_iff.mp hi
        obtain ⟨-, rfl⟩ | ⟨-, hth⟩ := thread_of_insert hth
        · cases hx
        · simp at hth
    rw [hnew]
    refine ⟨fun ht => ?_, fun hi => ?_, fun hi => ?_, fun hr => ?_, fun ht => ?_, fun hi => ?_⟩
    · simp [Client.new] at ht
    · simp [hwait] at hi
    · simp [hwait] at hi
    · simp [Watched.init, init] at hr
    · simp [Client.new] at ht
    · simp [hwait] at hi
  | @snoc w u as a run step ih =>
    subst hinit
    obtain ⟨hstep, hgone⟩ := Watched.step_iff.mp step.2
    have hrun : Run (Guarded Undisturbed Step) .init as w.system :=
      run.map (f := Watched.system) fun w a w' hst => ⟨hst.1.1, (Watched.step_iff.mp hst.2).1⟩
    rw [hgone]
    exact owned_step ih (sound_of_run hrun.of_guarded) (correlated_of_run (fun h => h.1) hrun)
      (apart_of_run id hrun) (exclusive_of_run id hrun) step.1.1.2 step.1.2 (step_cases hstep) c

/-! ## Ids and responses -/

/-- If the step enters an id in `mTransactions`, the id is new there. -/
def EntersNew (s : System) (a : System.Action) : Prop :=
  ∀ (c : Conn) (i : ThreadId) (t : UInt16), a = .client c (.send i) →
    ((s.client c).threads[i]?).bind (fun th => th.stage.id) = some t →
      (s.client c).mTransactions[t]? = none

/-- What `waitTransaction` takes under the id `t` is the response to the request number `r` of its
own call. -/
def OwnResponses (s : System) : Prop :=
  ∀ (c : Conn) (i : ThreadId) (t : UInt16) (r : ℕ) (m : Tagged),
    (s.client c).wait i = some (t, r, some m) → m.tag = r ∧ Responded s c ⟨m.tag, t, m.message⟩

/-- As long as no id is given to a request while it belongs to another call, or after a call under it
has timed out, every id that is entered is new and every call gets its own response. -/
theorem ownResponses_of_run {as : List System.Action}
    (h : Run (Guarded Settled Watched.Step) .init as w) :
    OwnResponses w.system ∧
      ∀ a w', Guarded Settled Watched.Step w a w' → EntersNew w.system a := by
  refine ⟨fun c i t r m hw => (owned_of_run h c).taken hw, ?_⟩
  rintro a w' ⟨hset, -⟩ c i t rfl ht
  obtain ⟨hgone, hfree⟩ := Watched.not_used hset.2 ht
  cases hx : (w.system.client c).mTransactions[t]? with
  | none => rfl
  | some x =>
    rcases (owned_of_run h c).entry hx with hmem | ⟨j, y, hj⟩
    · exact absurd hmem hgone
    · exact absurd hj (hfree j y)

/-- A client with one heartbeat that has timed out, and a second one that has been answered. -/
theorem ownResponses_beat : ∃ as w, Run (Guarded Settled Watched.Step) .init as w ∧
    w.timedOut = [(1, 1)] ∧ (w.system.client 1).wait 0 = some (2, 2, some ⟨2, .hearbeatResponse 0⟩) ∧
      OwnResponses w.system ∧
        ∀ a w', Guarded Settled Watched.Step w a w' → EntersNew w.system a := by
  obtain ⟨w, hw, h⟩ := (Option.any_eq_true _ _).mp (show (follow Watched.step
      (fun w a => decide (Settled w a)) .init (signinActions 1 ++ timeoutActions 1 .beat false ++
        askActions 1 .beat ++ [.serve 1, .client 1 .read, .client 1 .read, .client 1 (.take 0)])).any
      (fun w => decide (w.timedOut = [(1, 1)]) && decide ((w.system.client 1).wait 0 =
        some (2, 2, some ⟨2, .hearbeatResponse 0⟩))) = true by decide +kernel)
  simp only [Bool.and_eq_true, decide_eq_true_eq] at h
  have hrun := (run_of_follow Watched.step hw).mono fun w a w' hst =>
    (⟨of_decide_eq_true hst.1, hst.2⟩ : Guarded Settled Watched.Step w a w')
  exact ⟨_, w, hrun, h.1, h.2, ownResponses_of_run hrun⟩

/-! ## Ids that come round again -/

section IdReuse

variable {n : ℕ}

/-- A client signs in and sends a heartbeat, which is request number 1 with the id 1; its wait ends by
the timeout. -/
def lateActions : List System.Action :=
  signinActions 1 ++ timeoutActions 1 .beat false

/-- The `n`-th further heartbeat; the id `0xFFFF` is drawn in the one number 65533. -/
def beatActions (n : ℕ) : List System.Action :=
  timeoutActions 1 .beat (n == 65533)

/-- The first heartbeat is not handled yet, and `n` further ones have been sent and timed out. -/
structure Beating (s : System) (n : ℕ) : Prop where
  client : ∃ k rest, s.clients[(1 : Conn)]? = some k ∧ Unanswered k ∧ k.reader = none ∧
    k.inbound = [] ∧ k.outbound = ⟨1, 1, .hearbeatRequest 0⟩ :: rest ∧
    k.mTransactions[(1 : UInt16)]? = some .new ∧
    k.mTransactioIdCtr.toNat = if n = 65534 then 1 else n + 2
  terminated : s.terminated = false
  requests : s.requests.length = n + 2

/-- Such a run starts after the first heartbeat. -/
theorem beating_zero : ∃ s, Run Step .init lateActions s ∧ Beating s 0 := by
  obtain ⟨s, hs, h⟩ := (Option.any_eq_true _ _).mp (show (follow System.step (fun _ _ => true) .init
      lateActions).any (fun s => !s.terminated && decide (s.requests.length = 2) &&
        (s.clients[(1 : Conn)]?).any fun k => decide (k.status = .running) &&
          (k.threads[(0 : ThreadId)]?).isNone &&
          (k.mTransactions.toList.all fun x => !x.2.satisfied) && decide (k.reader = none) &&
          decide (k.inbound = []) && decide (k.outbound = [⟨1, 1, .hearbeatRequest 0⟩]) &&
          decide (k.mTransactions[(1 : UInt16)]? = some .new) &&
          decide (k.mTransactioIdCtr.toNat = 2)) = true by decide +kernel)
  simp only [Bool.and_eq_true, decide_eq_true_eq, Bool.not_eq_true'] at h
  obtain ⟨⟨ht, hreq⟩, hc⟩ := h
  obtain ⟨k, hk, hall⟩ := (Option.any_eq_true _ _).mp hc
  simp only [Bool.and_eq_true, decide_eq_true_eq, List.all_eq_true, Option.isNone_iff_eq_none,
    Bool.not_eq_true'] at hall
  obtain ⟨⟨⟨⟨⟨⟨⟨hr, hi⟩, hu⟩, hread⟩, hin⟩, hout⟩, hx⟩, hid⟩ := hall
  refine ⟨s, (run_of_follow System.step hs).of_guarded,
    ⟨k, [], hk, ⟨hr, hi, fun t response ht => ?_⟩, hread, hin, hout, hx, hid⟩, ht, hreq⟩
  cases hu _ (Std.ExtTreeMap.mem_toList_iff_getElem?_eq_some.mpr ht)

/-- One more heartbeat. -/
theorem Beating.further (h : Beating s n) (hn : n < 65534) :
    ∃ s', Run Step s (beatActions n) s' ∧ Beating s' (n + 1) := by
  obtain ⟨⟨k, rest, hk, hun, hread, hin, hout, hx, hid⟩, ht, hreq⟩ := h
  obtain ⟨s₁, k₁, hrun, h₁⟩ := exists_run_timeout .beat hk hun nofun nofun rfl rfl
  have hskip : k.mTransactioIdCtr = notificationId ↔ n = 65533 := by
    rw [← UInt16.toNat_inj, hid, if_neg hn.ne]
    simp only [notificationId, UInt16.reduceToNat]
    omega
  have hnext : (nextId k + 1).toNat = if n + 1 = 65534 then 1 else n + 1 + 2 := by
    simp only [nextId, hskip]
    split_ifs <;> simp only [UInt16.toNat_add, hid, UInt16.reduceToNat] <;> split_ifs <;> omega
  rw [show decide (k.mTransactioIdCtr = notificationId) = (n == 65533) by
    simp only [hskip, Bool.beq_eq_decide_eq]] at hrun
  refine ⟨s₁, hrun, ⟨k₁, _, h₁.clients, h₁.unanswered, h₁.reader.trans hread, h₁.inbound.trans hin,
    by rw [h₁.outbound, hout, List.cons_append], ?_, h₁.mTransactioIdCtr ▸ hnext⟩,
    h₁.terminated.trans ht, by simp [h₁.requests, hreq]⟩
  rw [h₁.mTransactions, Std.ExtTreeMap.getElem?_insertIfNew, if_neg, hx]
  rintro ⟨heq, hnot⟩
  rw [Std.LawfulEqCmp.eq_of_compare heq] at hnot
  exact hnot (Std.ExtTreeMap.mem_iff_isSome_getElem?.mpr (by simp [hx]))

/-- Any number of further heartbeats, as long as the first id has not come round. -/
theorem beating_of_le (hn : n ≤ 65534) :
    ∃ s, Run Step .init (lateActions ++ (List.range n).flatMap beatActions) s ∧ Beating s n := by
  induction n with
  | zero => simpa using beating_zero
  | succ n ih =>
    obtain ⟨s, hrun, h⟩ := ih (Nat.le_of_succ_le hn)
    obtain ⟨s', hrun', h'⟩ := h.further hn
    refine ⟨s', ?_, h'⟩
    rw [List.range_succ, List.flatMap_append, ← List.append_assoc]
    simpa using hrun.append hrun'

/-- The first heartbeat is answered at last, and one more is started: it draws the id 1 again. -/
theorem Beating.answered (h : Beating s 65534) :
    ∃ s' k' threads, Run Step s [.serve 1, .client 1 .read, .client 1 (.start 0 .beat),
        .client 1 (.fetchId 0)] s' ∧
      s'.clients[(1 : Conn)]? = some (atStage k' .beat 2 (.numbered (.hearbeatRequest 0) 1) threads) ∧
      k'.status = .running ∧ k'.mTransactions[(1 : UInt16)]? = some ⟨true, 1, .hearbeatResponse 0⟩ ∧
      s'.requests.length = 65536 := by
  obtain ⟨⟨k, rest, hk, hun, hread, hin, hout, hx, hid⟩, ht, hreq⟩ := h
  set o : List Output := [.send 1 ⟨1, .hearbeatResponse 0⟩] with ho
  have hserve : Step s (.serve 1) (afterServe s 1 k ⟨1, 1, .hearbeatRequest 0⟩ rest s.server o) :=
    step_of_serve hk hout ht rfl
  set k₁ := receive 1 o 1 { k with outbound := rest } with hk₁
  have hget₁ : (afterServe s 1 k ⟨1, 1, .hearbeatRequest 0⟩ rest s.server o).clients[(1 : Conn)]? =
      some k₁ := by
    simp [afterServe, hk₁]
  have hin₁ : k₁.inbound = [⟨1, 1, .hearbeatResponse 0⟩] := by simp [hk₁, receive, hin, sentTo, ho]
  set k₂ : Client := { k₁ with
    inbound := []
    mTransactions := k₁.mTransactions.insert 1 ⟨true, 1, .hearbeatResponse 0⟩ } with hk₂
  have hstep : ∀ number, k₁.step number .read = some (k₂, []) := by
    intro number
    have hopen : k₁.status ≠ .closed := by
      rw [show k₁.status = k.status from rfl, hun.running]
      decide
    have hr : k₁.reader = none := hread
    have hsat : k₁.mTransactions[(1 : UInt16)]? = some .new := hx
    simp [Client.step, hopen, Client.read, hr, hin₁, Client.handle, hsat, hk₂, Packet.body]
  obtain ⟨s₂, h₂, hget₂, -, -, hreq₂⟩ := silent_of_client hget₁ (hstep _)
  obtain ⟨s₃, h₃, hget₃, -, -, hreq₃⟩ :=
    exists_start .beat hget₂ hun.running hun.idle (by simp) (by simp) rfl rfl
  obtain ⟨s₄, threads, h₄, hget₄, -, -, hreq₄⟩ :=
    exists_run_fetchId (k := k₂) (show k.status ≠ .closed by simp [hun.running]) hget₃
  have hctr : k₂.mTransactioIdCtr = 1 := UInt16.toNat_inj.mp hid
  rw [if_neg (by rw [hctr]; decide)] at h₄
  rw [nextId, if_neg (by rw [hctr]; decide), hctr] at hget₄
  refine ⟨s₄, k₂, threads, ?_, hget₄, hun.running, by simp [hk₂], ?_⟩
  · exact (((Run.single hserve).snoc h₂).snoc h₃).append h₄
  · rw [hreq₄, hreq₃, hreq₂]
    exact hreq

/-- The new heartbeat finds the entry of the first one, and is answered with its response. -/
theorem not_ownResponses_stale : ∃ s s', Run Step .init (lateActions ++
      (List.range 65534).flatMap beatActions ++ [.serve 1, .client 1 .read,
        .client 1 (.start 0 .beat), .client 1 (.fetchId 0)]) s ∧
    ¬ EntersNew s (.client 1 (.send 0)) ∧
      Run Step s [.client 1 (.send 0), .client 1 (.take 0)] s' ∧ ¬ OwnResponses s' := by
  obtain ⟨s, hrun, h⟩ := beating_of_le (n := 65534) le_rfl
  obtain ⟨s', k, threads, hrun', hk, hr, hx, hreq⟩ := h.answered
  have hkc := client_of_some hk
  set k₁ := atStage k .beat 2 (.numbered (.hearbeatRequest 0) 1) threads with hk₁
  have hopen : k.status ≠ .closed := by simp [hr]
  have hkeep : (k.mTransactions.insertIfNew 1 .new)[(1 : UInt16)]? =
      some ⟨true, 1, .hearbeatResponse 0⟩ := by
    rw [Std.ExtTreeMap.getElem?_insertIfNew, if_neg, hx]
    exact fun hnew => hnew.2 (Std.ExtTreeMap.mem_iff_isSome_getElem?.mpr (by simp [hx]))
  set k₂ := { k₁ with mTransactions := k.mTransactions.insertIfNew 1 .new }.setStage 0 .beat
    (.waiting 1 65536) with hk₂
  have hsend : k₁.step s'.requests.length (.send 0) =
      some (k₂, [⟨65536, 1, .hearbeatRequest 0⟩]) := by
    simp [Client.step, Client.send, hk₂, hk₁, atStage, setStage, hopen, hreq]
  have h₁ := step_of_client hk hsend
  set k₃ : Client := { k₂ with
    outbound := k₂.outbound ++ [⟨65536, 1, .hearbeatRequest 0⟩] } with hk₃
  have htake : ∀ number, k₃.step number (.take 0) =
      some (k₃.setStage 0 .beat (.taken 1 65536 ⟨1, .hearbeatResponse 0⟩), []) := by
    intro number
    have hthread : k₃.threads[(0 : ThreadId)]? = some ⟨.beat, .waiting 1 65536⟩ := by
      simp [hk₃, hk₂, setStage]
    have hsat : k₃.mTransactions[(1 : UInt16)]? = some ⟨true, 1, .hearbeatResponse 0⟩ := hkeep
    have hopen₃ : k₃.status ≠ .closed := hopen
    simp only [Client.step, if_neg hopen₃, Client.take, hthread, hsat, Option.map_some]
  obtain ⟨s₂, h₂, hget, -, -, -⟩ := silent_of_client (afterClient_clients _ _ _ _) (htake _)
  refine ⟨s', s₂, hrun.append hrun', fun hnew => ?_, (Run.single h₁).snoc h₂, fun hown => ?_⟩
  · have hnone := hnew 1 0 1 rfl (by simp [hkc, hk₁, atStage, Stage.id])
    rw [hkc, show k₁.mTransactions = k.mTransactions from rfl, hx] at hnone
    cases hnone
  · have htag := (hown 1 0 1 65536 ⟨1, .hearbeatResponse 0⟩ ?_).1
    · cases htag
    · rw [client_of_some hget]
      simp [wait, setStage, Stage.wait]

end IdReuse

end PropertyTree.System
