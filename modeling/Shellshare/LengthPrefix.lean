import Mathlib.Data.List.Basic

/-! Streams of length-prefixed records: a header that writes a length with a
fixed number of symbols, records of a least length, and the parser that walks
from one record to the next. -/
namespace LengthPrefix

variable {α : Type*}

/-- How a length below `bound` is written, with exactly `width` symbols. Every
`width` symbols are some length. -/
structure Header (α : Type*) where
  width : ℕ
  bound : ℕ
  encode : ℕ → List α
  decode : List α → ℕ
  width_pos : 0 < width
  length_encode : ∀ n, (encode n).length = width
  decode_encode : ∀ n, n < bound → decode (encode n) = n
  decode_lt : ∀ l, l.length = width → decode l < bound
  encode_decode : ∀ l, l.length = width → encode (decode l) = l

/-- What stands at the front of a stream. -/
inductive Front (α : Type*) where
  | finished
  | malformed
  | record (body rest : List α)

namespace Header

variable (h : Header α) (least : ℕ)

/-- One record: the length of its body, then the body. -/
def frame (body : List α) : List α := h.encode body.length ++ body

/-- A body that the parser accepts. -/
def Fits (body : List α) : Prop := least ≤ body.length ∧ body.length < h.bound

/-- The streams that are records and nothing else. -/
def Framed (stream : List α) : Prop :=
  ∃ bodies : List (List α), (∀ body ∈ bodies, h.Fits least body) ∧
    stream = bodies.flatMap h.frame

def front (stream : List α) : Front α :=
  if stream = [] then .finished
  else if stream.length < h.width then .malformed
  else
    let len := h.decode (stream.take h.width)
    if len < least ∨ stream.length - h.width < len then .malformed
    else .record ((stream.drop h.width).take len) (stream.drop (h.width + len))

variable {h} {least}

theorem length_frame (body : List α) : (h.frame body).length = h.width + body.length := by
  rw [frame, List.length_append, h.length_encode]

/-- The parser finds the record that was written. -/
theorem front_frame {body : List α} (hfits : h.Fits least body) (rest : List α) :
    h.front least (h.frame body ++ rest) = .record body rest := by
  have hlen : (h.frame body ++ rest).length = h.width + body.length + rest.length := by
    rw [List.length_append, length_frame]
  have hne : h.frame body ++ rest ≠ [] := by
    apply List.ne_nil_of_length_pos
    have hpos := h.width_pos
    omega
  have hassoc : h.frame body ++ rest = h.encode body.length ++ (body ++ rest) := by
    rw [frame, List.append_assoc]
  have htake : (h.frame body ++ rest).take h.width = h.encode body.length := by
    rw [hassoc]
    exact List.take_left' (h.length_encode _)
  have hdrop : (h.frame body ++ rest).drop h.width = body ++ rest := by
    rw [hassoc]
    exact List.drop_left' (h.length_encode _)
  have hdecode : h.decode ((h.frame body ++ rest).take h.width) = body.length := by
    rw [htake]
    exact h.decode_encode _ hfits.2
  have hleast := hfits.1
  rw [front, if_neg hne, if_neg (by omega)]
  simp only [hdecode, ← List.drop_drop, hdrop]
  rw [if_neg (by omega), List.take_left, List.drop_left]

/-- And nothing else: what it finds is a record, written in full. -/
theorem eq_of_front_record {stream body rest : List α}
    (hfront : h.front least stream = .record body rest) :
    h.Fits least body ∧ stream = h.frame body ++ rest := by
  simp only [front] at hfront
  split_ifs at hfront with hnil hshort
  obtain ⟨hbody, hrest⟩ := Front.record.inj hfront
  let len := h.decode (stream.take h.width)
  have hwidth : (stream.take h.width).length = h.width := by
    rw [List.length_take]
    omega
  have hlen : body.length = len := by
    rw [← hbody, List.length_take, List.length_drop]
    omega
  have hheader : h.encode body.length = stream.take h.width := by
    rw [hlen]
    exact h.encode_decode _ hwidth
  refine ⟨⟨by omega, hlen ▸ h.decode_lt _ hwidth⟩, ?_⟩
  rw [frame, hheader, ← hbody, ← hrest, List.append_assoc, ← List.drop_drop,
    List.take_append_drop, List.take_append_drop]

theorem length_of_front_record {stream body rest : List α}
    (hfront : h.front least stream = .record body rest) : rest.length < stream.length := by
  have hstream := (eq_of_front_record hfront).2
  have hpos := h.width_pos
  have hlen := congrArg List.length hstream
  rw [List.length_append, length_frame] at hlen
  omega

theorem front_finished_iff {stream : List α} : h.front least stream = .finished ↔ stream = [] := by
  constructor
  · intro hfront
    simp only [front] at hfront
    split_ifs at hfront with hnil
    exact hnil
  · intro hnil
    rw [front, if_pos hnil]

variable (h least) in
/-- The bodies of a stream, `none` when it is malformed. -/
def parse (stream : List α) : Option (List (List α)) :=
  match _hfront : h.front least stream with
  | .finished => some []
  | .malformed => none
  | .record body rest => (parse rest).map (body :: ·)
termination_by stream.length
decreasing_by exact length_of_front_record _hfront

theorem parse_nil : h.parse least [] = some [] := by
  rw [parse]
  have hfront : h.front least [] = .finished := front_finished_iff.mpr rfl
  split <;> rename_i heq <;> rw [hfront] at heq <;> first | rfl | cases heq

theorem parse_of_malformed {stream : List α} (hfront : h.front least stream = .malformed) :
    h.parse least stream = none := by
  rw [parse]
  split <;> rename_i heq <;> rw [hfront] at heq <;> first | rfl | cases heq

theorem parse_of_record {stream body rest : List α}
    (hfront : h.front least stream = .record body rest) :
    h.parse least stream = (h.parse least rest).map (body :: ·) := by
  rw [parse]
  split <;> rename_i heq <;> rw [hfront] at heq <;> cases heq
  rfl

theorem parse_frame_append {body : List α} (hfits : h.Fits least body) (rest : List α) :
    h.parse least (h.frame body ++ rest) = (h.parse least rest).map (body :: ·) :=
  parse_of_record (front_frame hfits rest)

/-- Decoding undoes encoding, and decodes what was encoded only. -/
theorem parse_eq_some_iff {stream : List α} {bodies : List (List α)} :
    h.parse least stream = some bodies ↔
      (∀ body ∈ bodies, h.Fits least body) ∧ stream = bodies.flatMap h.frame := by
  constructor
  · intro hparse
    induction bodies generalizing stream with
    | nil =>
      cases hfront : h.front least stream with
      | finished =>
        rw [front_finished_iff.mp hfront]
        exact ⟨nofun, rfl⟩
      | malformed =>
        rw [parse_of_malformed hfront] at hparse
        cases hparse
      | record body rest =>
        rw [parse_of_record hfront] at hparse
        obtain ⟨_, -, hcons⟩ := Option.map_eq_some_iff.mp hparse
        cases hcons
    | cons body bodies ih =>
      cases hfront : h.front least stream with
      | finished =>
        rw [front_finished_iff.mp hfront, parse_nil] at hparse
        cases hparse
      | malformed =>
        rw [parse_of_malformed hfront] at hparse
        cases hparse
      | record first rest =>
        rw [parse_of_record hfront] at hparse
        obtain ⟨others, hrest, hcons⟩ := Option.map_eq_some_iff.mp hparse
        obtain ⟨rfl, rfl⟩ := List.cons.inj hcons
        obtain ⟨hfits, hstream⟩ := eq_of_front_record hfront
        obtain ⟨hall, hflat⟩ := ih hrest
        refine ⟨?_, ?_⟩
        · intro b hb
          rcases List.mem_cons.mp hb with rfl | hb
          · exact hfits
          · exact hall b hb
        · rw [hstream, hflat, List.flatMap_cons]
  · rintro ⟨hall, rfl⟩
    induction bodies with
    | nil => exact parse_nil
    | cons body bodies ih =>
      rw [List.flatMap_cons, parse_frame_append (hall body List.mem_cons_self),
        ih fun b hb => hall b (List.mem_cons_of_mem body hb)]
      rfl

theorem framed_iff_parse {stream : List α} :
    h.Framed least stream ↔ ∃ bodies, h.parse least stream = some bodies := by
  simp only [Framed, parse_eq_some_iff]

/-- Records may be cut anywhere between two of them. -/
theorem parse_append {stream rest : List α} {bodies others : List (List α)}
    (hstream : h.parse least stream = some bodies) (hrest : h.parse least rest = some others) :
    h.parse least (stream ++ rest) = some (bodies ++ others) := by
  obtain ⟨hall, rfl⟩ := parse_eq_some_iff.mp hstream
  obtain ⟨hothers, rfl⟩ := parse_eq_some_iff.mp hrest
  rw [parse_eq_some_iff, List.flatMap_append]
  refine ⟨?_, rfl⟩
  intro body hbody
  rcases List.mem_append.mp hbody with hbody | hbody
  · exact hall body hbody
  · exact hothers body hbody

end Header

end LengthPrefix
