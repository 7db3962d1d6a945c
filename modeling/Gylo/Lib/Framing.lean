import Gylo.Lib.Unpacking

/-! # Cutting a stream into frames

A stream arrives in chunks of any size, and a reader takes frames off its front
as soon as they are whole. As long as what the reader finds at the front does
not depend on what follows, the frames it takes are those of the stream, however
that was cut into chunks. -/
namespace Framing

variable {α β ε : Type}

/-- What a look at the front of a stream finds: the beginning of a frame, a
frame and the rest, or something that is no frame. -/
inductive Cut (α β ε : Type) where
  | more
  | item (b : β) (rest : List α)
  | bad (e : ε)

/-- A way to take frames off a stream. Once it has found something, further
input does not change it, and a frame takes up space. -/
structure Cutter (α β ε : Type) where
  cut : List α → Cut α β ε
  item_append : ∀ {xs b rest}, cut xs = .item b rest → ∀ ys, cut (xs ++ ys) = .item b (rest ++ ys)
  bad_append : ∀ {xs e}, cut xs = .bad e → ∀ ys, cut (xs ++ ys) = .bad e
  item_shorter : ∀ {xs b rest}, cut xs = .item b rest → rest.length < xs.length

/-- The frames at the front of a stream, what is left of it, and what is wrong
with that. -/
@[ext] structure Frames (α β ε : Type) where
  items : List β
  rest : List α
  error : Option ε

def Frames.before (bs : List β) (f : Frames α β ε) : Frames α β ε :=
  { f with items := bs ++ f.items }

@[simp] theorem Frames.before_nil (f : Frames α β ε) : f.before [] = f := rfl

namespace Cutter

variable (c : Cutter α β ε)

/-- At most `n` frames. -/
def frames? : Nat → List α → Frames α β ε
  | 0, xs => ⟨[], xs, none⟩
  | n + 1, xs =>
    match c.cut xs with
    | .more => ⟨[], xs, none⟩
    | .bad e => ⟨[], xs, some e⟩
    | .item b rest => (frames? n rest).before [b]

/-- All frames of a stream. -/
def frames (xs : List α) : Frames α β ε := c.frames? (xs.length + 1) xs

theorem frames?_eq : ∀ (n m : Nat) (xs : List α), xs.length < n → xs.length < m →
    c.frames? n xs = c.frames? m xs
  | 0, _, _, h, _ => absurd h (Nat.not_lt_zero _)
  | _, 0, _, _, h => absurd h (Nat.not_lt_zero _)
  | n + 1, m + 1, xs, hn, hm => by
    unfold frames?
    cases hcut : c.cut xs with
    | more => rfl
    | bad e => rfl
    | item b rest =>
      have hlt := c.item_shorter hcut
      simp only [frames?_eq n m rest (by omega) (by omega)]

section
variable {c} {xs : List α}

theorem frames_more (h : c.cut xs = .more) : c.frames xs = ⟨[], xs, none⟩ := by
  simp only [frames, frames?, h]

theorem frames_bad {e : ε} (h : c.cut xs = .bad e) : c.frames xs = ⟨[], xs, some e⟩ := by
  simp only [frames, frames?, h]

theorem frames_item {b : β} {rest : List α} (h : c.cut xs = .item b rest) :
    c.frames xs = (c.frames rest).before [b] := by
  have hlt := c.item_shorter h
  rw [frames, frames?, h]
  simp only [frames, c.frames?_eq xs.length (rest.length + 1) rest hlt (Nat.lt_succ_self _)]
end

/-- Induction over the frames of a stream. -/
theorem frames_induct {motive : List α → Prop} (more : ∀ xs, c.cut xs = .more → motive xs)
    (bad : ∀ xs e, c.cut xs = .bad e → motive xs)
    (item : ∀ xs b rest, c.cut xs = .item b rest → motive rest → motive xs) (xs : List α) :
    motive xs := by
  induction hn : xs.length using Nat.strongRecOn generalizing xs with
  | ind n ih =>
    cases hcut : c.cut xs with
    | more => exact more xs hcut
    | bad e => exact bad xs e hcut
    | item b rest =>
      exact item xs b rest hcut (ih rest.length (hn ▸ c.item_shorter hcut) rest rfl)

/-- **What was found stays found**: more input only adds to the rest. -/
theorem frames_append (xs ys : List α) :
    c.frames (xs ++ ys) =
      match (c.frames xs).error with
      | some e => ⟨(c.frames xs).items, (c.frames xs).rest ++ ys, some e⟩
      | none => (c.frames ((c.frames xs).rest ++ ys)).before (c.frames xs).items := by
  induction xs using c.frames_induct with
  | more xs h => simp [frames_more h]
  | bad xs e h => simp [frames_bad h, frames_bad (c.bad_append h ys)]
  | item xs b rest h ih =>
    rw [frames_item (c.item_append h ys), ih, frames_item h]
    cases he : (c.frames rest).error <;> simp [Frames.before, he]

/-- The rest holds no whole frame. -/
theorem frames_rest (xs : List α) :
    c.frames (c.frames xs).rest = ⟨[], (c.frames xs).rest, (c.frames xs).error⟩ := by
  induction xs using c.frames_induct with
  | more xs h => simp [frames_more h]
  | bad xs e h => simp [frames_bad h]
  | item xs b rest h ih => simpa [frames_item h, Frames.before] using ih

/-- A reader may stop anywhere and go on from the rest, even from an error. -/
theorem frames_resume (xs ys : List α) :
    c.frames (xs ++ ys) = (c.frames ((c.frames xs).rest ++ ys)).before (c.frames xs).items := by
  have hrest := c.frames_append (c.frames xs).rest ys
  rw [c.frames_rest] at hrest
  rw [c.frames_append]
  cases he : (c.frames xs).error with
  | none => rfl
  | some e =>
    simp only [he] at hrest
    simp [hrest, Frames.before]

theorem error_append {xs : List α} {e : ε} (h : (c.frames xs).error = some e) (ys : List α) :
    (c.frames (xs ++ ys)).error = some e := by
  rw [c.frames_append, h]

/-! ## Chunks -/

/-- A buffer is fed one chunk after the other and emptied of frames after each;
the first error ends it. -/
def feed : List (List α) → List α → Frames α β ε
  | [], buf => ⟨[], buf, none⟩
  | chunk :: chunks, buf =>
    match (c.frames (buf ++ chunk)).error with
    | some e => ⟨(c.frames (buf ++ chunk)).items, (c.frames (buf ++ chunk)).rest, some e⟩
    | none => (feed chunks (c.frames (buf ++ chunk)).rest).before (c.frames (buf ++ chunk)).items

theorem feed_singleton (xs : List α) : c.feed [xs] [] = c.frames xs := by
  unfold feed
  rw [List.nil_append]
  cases he : (c.frames xs).error with
  | some e => simp only [← he]
  | none => simp only [feed, Frames.before, List.append_nil, ← he]

/-- **Cutting the stream into chunks changes nothing**, as long as it holds no
error and the buffer no whole frame. -/
theorem feed_eq_frames (chunks : List (List α)) (buf : List α) (hbuf : c.cut buf = .more)
    (herror : (c.frames (buf ++ chunks.flatten)).error = none) :
    c.feed chunks buf = c.frames (buf ++ chunks.flatten) := by
  induction chunks generalizing buf with
  | nil => simp [feed, frames_more hbuf]
  | cons chunk chunks ih =>
    rw [List.flatten_cons, ← List.append_assoc, frames_append] at herror ⊢
    unfold feed
    cases he : (c.frames (buf ++ chunk)).error with
    | some e => simp [he] at herror
    | none =>
      have hrest := c.frames_rest (buf ++ chunk)
      simp only [he, Frames.before] at herror hrest ⊢
      have hmore : c.cut (c.frames (buf ++ chunk)).rest = .more := by
        cases hcut : c.cut (c.frames (buf ++ chunk)).rest with
        | more => rfl
        | bad e => rw [frames_bad hcut] at hrest; cases hrest
        | item b rest => rw [frames_item hcut] at hrest; cases hrest
      rw [ih _ hmore herror]

/-! ## Writing -/

/-- A stream of frames followed by nothing. -/
theorem frames_flatMap {γ : Type} {code : γ → List α} {value : γ → β} (hempty : c.cut [] = .more) :
    ∀ gs : List γ, (∀ g ∈ gs, ∀ rest, c.cut (code g ++ rest) = .item (value g) rest) →
      c.frames (gs.flatMap code) = ⟨gs.map value, [], none⟩
  | [], _ => frames_more hempty
  | g :: gs, h => by
    rw [List.flatMap_cons, frames_item (h g List.mem_cons_self _),
      frames_flatMap hempty gs fun g' hg' => h g' (List.mem_cons_of_mem g hg')]
    rfl

end Cutter

/-! ## Frames with a length in front -/

/-- A frame is the length of its body, as a little-endian `u32` of at most
`limit`, and the body. -/
structure Prefixed (β ε : Type) where
  limit : Nat
  tooLarge : Nat → ε
  decode : List UInt8 → Except ε β

namespace Prefixed

open Packing

variable (p : Prefixed β ε)

/-- The length a stream of four bytes or more begins with. -/
def bodyLen (xs : List UInt8) : Nat := ofLittleEndian (xs.take 4)

theorem bodyLen_append {xs : List UInt8} (h : ¬ xs.length < 4) (ys : List UInt8) :
    bodyLen (xs ++ ys) = bodyLen xs := by
  rw [bodyLen, bodyLen, List.take_append_of_le_length (by omega)]

def cut (xs : List UInt8) : Cut UInt8 β ε :=
  if xs.length < 4 then .more
  else if p.limit < bodyLen xs then .bad (p.tooLarge (bodyLen xs))
  else if xs.length - 4 < bodyLen xs then .more
  else match p.decode ((xs.drop 4).take (bodyLen xs)) with
    | .error e => .bad e
    | .ok b => .item b (xs.drop (4 + bodyLen xs))

section
variable {p} {xs : List UInt8}

theorem cut_header (h : xs.length < 4) : p.cut xs = .more := by
  rw [cut, if_pos h]

theorem cut_partial (hlimit : bodyLen xs ≤ p.limit) (h : xs.length - 4 < bodyLen xs) :
    p.cut xs = .more := by
  by_cases hheader : xs.length < 4
  · exact cut_header hheader
  · rw [cut, if_neg hheader, if_neg (Nat.not_lt.mpr hlimit), if_pos h]

theorem cut_tooLarge (h : 4 ≤ xs.length) (hlimit : p.limit < bodyLen xs) :
    p.cut xs = .bad (p.tooLarge (bodyLen xs)) := by
  rw [cut, if_neg (by omega), if_pos hlimit]

theorem cut_whole (h : 4 + bodyLen xs ≤ xs.length) (hlimit : bodyLen xs ≤ p.limit) :
    p.cut xs = match p.decode ((xs.drop 4).take (bodyLen xs)) with
      | .error e => .bad e
      | .ok b => .item b (xs.drop (4 + bodyLen xs)) := by
  rw [cut, if_neg (by omega), if_neg (by omega), if_neg (by omega)]

/-- What a look at the stream can find. -/
theorem cut_cases (p : Prefixed β ε) (xs : List UInt8) : p.cut xs = .more ∨
    4 ≤ xs.length ∧ p.limit < bodyLen xs ∨ 4 + bodyLen xs ≤ xs.length ∧ bodyLen xs ≤ p.limit := by
  unfold cut
  by_cases h₁ : xs.length < 4
  · exact .inl (if_pos h₁)
  rw [if_neg h₁]
  by_cases h₂ : p.limit < bodyLen xs
  · exact .inr (.inl ⟨by omega, h₂⟩)
  rw [if_neg h₂]
  by_cases h₃ : xs.length - 4 < bodyLen xs
  · exact .inl (if_pos h₃)
  · exact .inr (.inr ⟨by omega, by omega⟩)

/-- Unless the frame is still coming, more input changes nothing. -/
theorem cut_append (h : p.cut xs ≠ .more) (ys : List UInt8) :
    p.cut (xs ++ ys) = match p.cut xs with
      | .more => .more
      | .bad e => .bad e
      | .item b rest => .item b (rest ++ ys) := by
  rcases p.cut_cases xs with hmore | hlarge | hwhole
  · exact absurd hmore h
  · obtain ⟨hlen, hlimit⟩ := hlarge
    have hbody : bodyLen (xs ++ ys) = bodyLen xs := bodyLen_append (by omega) ys
    rw [cut_tooLarge hlen hlimit, cut_tooLarge (by simp; omega) (by rw [hbody]; exact hlimit), hbody]
  · obtain ⟨hlen, hlimit⟩ := hwhole
    have hbody : bodyLen (xs ++ ys) = bodyLen xs := bodyLen_append (by omega) ys
    rw [cut_whole hlen hlimit, cut_whole (by simp; omega) (by rw [hbody]; exact hlimit), hbody,
      List.drop_append_of_le_length (by omega), List.drop_append_of_le_length (by omega),
      List.take_append_of_le_length (by rw [List.length_drop]; omega)]
    cases p.decode ((xs.drop 4).take (bodyLen xs)) <;> rfl

/-- A frame of a body that decodes is taken off, whatever follows. -/
theorem cut_frame {body : List UInt8} {b : β} (hlimit : body.length ≤ p.limit)
    (hfits : body.length < 4294967296) (hdecode : p.decode body = .ok b) (rest : List UInt8) :
    p.cut (littleEndian 4 body.length ++ body ++ rest) = .item b rest := by
  have hhead : (littleEndian 4 body.length).length = 4 := length_littleEndian _ _
  have hlen : bodyLen (littleEndian 4 body.length ++ body ++ rest) = body.length := by
    rw [bodyLen, List.append_assoc, List.take_left' hhead]
    exact ofLittleEndian_littleEndian 4 body.length hfits
  rw [cut_whole (by rw [hlen]; simp [hhead]) (by rw [hlen]; exact hlimit), hlen,
    List.append_assoc, List.drop_left' hhead, List.take_left' rfl, hdecode, ← List.append_assoc,
    List.drop_left' (by simp [hhead])]
end

theorem shorter {xs rest : List UInt8} {b : β} (h : p.cut xs = .item b rest) :
    rest.length < xs.length := by
  rcases p.cut_cases xs with hmore | hlarge | hwhole
  · rw [hmore] at h; cases h
  · rw [cut_tooLarge hlarge.1 hlarge.2] at h; cases h
  · rw [cut_whole hwhole.1 hwhole.2] at h
    split at h
    · cases h
    · cases h
      rw [List.length_drop]
      omega

def cutter : Cutter UInt8 β ε where
  cut := p.cut
  item_append h ys := by rw [cut_append (by rw [h]; exact fun h => by cases h), h]
  bad_append h ys := by rw [cut_append (by rw [h]; exact fun h => by cases h), h]
  item_shorter := p.shorter

theorem cutter_cut (xs : List UInt8) : p.cutter.cut xs = p.cut xs := rfl

theorem cutter_nil : p.cutter.cut [] = .more := rfl

end Prefixed

end Framing
