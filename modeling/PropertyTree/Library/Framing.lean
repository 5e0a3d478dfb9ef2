import Mathlib

/-!
# Length-prefixed framing

A frame is a header that announces the length of a payload, followed by the payload, and a stream is
a concatenation of frames.  A stream determines its payloads: a beginning of it that consists of
whole frames and at most one incomplete one can only be the whole stream if nothing is left over.
-/

namespace Library.Framing

variable {α : Type*} (header : ℕ → List α) {width : ℕ}

/-- A payload behind the header that announces its length. -/
def frame (payload : List α) : List α :=
  header payload.length ++ payload

/-- The frames of the payloads, one after the other. -/
def stream (payloads : List (List α)) : List α :=
  payloads.flatMap (frame header)

@[simp] theorem stream_nil : stream header [] = [] := rfl

theorem stream_cons (p : List α) (ps : List (List α)) :
    stream header (p :: ps) = frame header p ++ stream header ps := rfl

theorem stream_append (ps qs : List (List α)) :
    stream header (ps ++ qs) = stream header ps ++ stream header qs :=
  List.flatMap_append

/-- One more frame at the end of a stream. -/
theorem stream_concat (ps : List (List α)) (p : List α) :
    stream header (ps ++ [p]) = stream header ps ++ frame header p := by
  rw [stream_append, stream_cons, stream_nil, List.append_nil]

/-- Nothing, or a header with less behind it than any payload with that header has. -/
def Incomplete (width : ℕ) (ps : List (List α)) (rest : List α) : Prop :=
  rest = [] ∨ ∃ h body, rest = h ++ body ∧ h.length = width ∧
    ∀ p ∈ ps, header p.length = h → body.length < p.length

/-- A stream and an incomplete frame make a second stream only if there is nothing incomplete and the
payloads are the same, provided that equal headers mean equal lengths. -/
theorem eq_of_stream_append (hwidth : ∀ n, (header n).length = width) {qs ps : List (List α)}
    {rest : List α} (hinj : ∀ q ∈ qs, ∀ p ∈ ps, header q.length = header p.length →
      q.length = p.length) (hrest : Incomplete header width ps rest)
    (heq : stream header qs ++ rest = stream header ps) (hpos : 0 < width) : qs = ps ∧ rest = [] := by
  induction qs generalizing ps with
  | nil =>
    rw [stream_nil, List.nil_append] at heq
    cases ps with
    | nil => exact ⟨rfl, heq⟩
    | cons p ps =>
      rw [stream_cons, frame, List.append_assoc] at heq
      exfalso
      rcases hrest with rfl | ⟨h, body, rfl, hlen, hshort⟩
      · have := congrArg List.length heq
        simp only [List.length_nil, List.length_append, hwidth] at this
        omega
      · obtain ⟨rfl, hbody⟩ := List.append_inj heq (hlen.trans (hwidth _).symm)
        have := hshort p List.mem_cons_self rfl
        have := congrArg List.length hbody
        simp only [List.length_append] at this
        omega
  | cons q qs ih =>
    cases ps with
    | nil =>
      exfalso
      have := congrArg List.length heq
      simp only [stream_cons, stream_nil, frame, List.length_append, List.length_nil, hwidth] at this
      omega
    | cons p ps =>
      rw [stream_cons, stream_cons, frame, frame, List.append_assoc, List.append_assoc,
        List.append_assoc] at heq
      obtain ⟨hheader, hbody⟩ := List.append_inj heq ((hwidth _).trans (hwidth _).symm)
      have hlen := hinj q List.mem_cons_self p List.mem_cons_self hheader
      obtain ⟨rfl, htail⟩ := List.append_inj hbody hlen
      have hrest' : Incomplete header width ps rest := by
        rcases hrest with rfl | ⟨h, body, rfl, hlen', hshort⟩
        · exact .inl rfl
        · exact .inr ⟨h, body, rfl, hlen', fun p hp => hshort p (List.mem_cons_of_mem _ hp)⟩
      obtain ⟨rfl, hnil⟩ := ih (fun q' hq' p' hp' => hinj q' (List.mem_cons_of_mem _ hq') p'
        (List.mem_cons_of_mem _ hp')) hrest' htail
      exact ⟨rfl, hnil⟩

/-- The payloads of whole frames at the beginning of a stream are the first payloads of it. -/
theorem exists_of_stream_append (hwidth : ∀ n, (header n).length = width) (hpos : 0 < width)
    {qs ps : List (List α)} {rest : List α} (hinj : ∀ q ∈ qs, ∀ p ∈ ps,
      header q.length = header p.length → q.length = p.length)
    (heq : stream header qs ++ rest = stream header ps) :
    ∃ ps', ps = qs ++ ps' ∧ rest = stream header ps' := by
  induction qs generalizing ps with
  | nil => exact ⟨ps, rfl, heq⟩
  | cons q qs ih =>
    cases ps with
    | nil =>
      exfalso
      have := congrArg List.length heq
      simp only [stream_cons, stream_nil, frame, List.length_append, List.length_nil, hwidth] at this
      omega
    | cons p ps =>
      rw [stream_cons, stream_cons, frame, frame, List.append_assoc, List.append_assoc,
        List.append_assoc] at heq
      obtain ⟨hheader, hbody⟩ := List.append_inj heq ((hwidth _).trans (hwidth _).symm)
      have hlen := hinj q List.mem_cons_self p List.mem_cons_self hheader
      obtain ⟨rfl, htail⟩ := List.append_inj hbody hlen
      obtain ⟨ps', rfl, hrest⟩ := ih (fun q' hq' p' hp' =>
        hinj q' (List.mem_cons_of_mem _ hq') p' (List.mem_cons_of_mem _ hp')) htail
      exact ⟨ps', rfl, hrest⟩

end Library.Framing
