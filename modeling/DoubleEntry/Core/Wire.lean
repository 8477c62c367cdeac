import DoubleEntry.Core.OrdMap

/-!
# Values on the wire

`Tree` is what a serializer is told of a value and what a deserializer is given: numbers,
text, options, sequences, maps, and records whose fields have names. Names of types are
not part of it. A `Codec` writes values as trees and reads them back, or refuses; it is
lossless on the values that meet `ok` if it reads what it wrote (`Codec.Lossless`). The
codecs of parts make those of options, lists and maps, and a record is read field by
field, whatever the order and whatever else is there (`required_record`,
`optional_record`).

**Results.**
* `Lossless.text`, `lossless_unsigned`, `lossless_variants`, `Lossless.option`, `Lossless.list`,
  `Lossless.map`, `Lossless.record2`, `Lossless.record3`: what is written is read back.
* `Within.list`, `Within.record2`, `Within.record3`: what is read has the bounds of its parts,
  whoever wrote it.
-/
namespace DoubleEntry.Core

inductive Tree
  | none
  | some (value : Tree)
  | int (n : Int)
  | str (text : String)
  | bytes (bytes : List UInt8)
  | variant (name : String)
  | newtype (value : Tree)
  | seq (elements : List Tree)
  | map (entries : List (Tree × Tree))
  | record (fields : List (String × Tree))

structure Codec (α : Type) where
  write : α → Tree
  read : Tree → Option α

namespace Codec

variable {α β : Type} {ok : α → Prop} {ok' : β → Prop} {c : Codec α} {d : Codec β}

def Lossless (ok : α → Prop) (c : Codec α) : Prop := ∀ a, ok a → c.read (c.write a) = some a

/-! ## Leaves -/

/-- A value as text. -/
def text (render : α → String) (parse : String → Option α) : Codec α where
  write a := .str (render a)
  read
    | .str s => parse s
    | _ => none

theorem Lossless.text {render : α → String} {parse : String → Option α} (h : ∀ a, ok a → parse (render a) = some a) :
    (Codec.text render parse).Lossless ok := h

/-- An unsigned integer of `w` bits. -/
def unsigned (w : Nat) : Codec Nat where
  write n := .int n
  read
    | .int n => if 0 ≤ n ∧ n < 2 ^ w then some n.toNat else none
    | _ => none

theorem lossless_unsigned (w : Nat) : (unsigned w).Lossless (· < 2 ^ w) := by
  intro n hn
  have hfits : (0 : Int) ≤ n ∧ (n : Int) < 2 ^ w := ⟨by omega, by exact_mod_cast hn⟩
  exact if_pos hfits

/-- One of the variants of an enumeration, by its name. -/
def variants (all : List α) (name : α → String) : Codec α where
  write a := .variant (name a)
  read
    | .variant s => all.find? fun a => name a = s
    | _ => none

theorem lossless_variants {all : List α} {name : α → String} (hname : Function.Injective name) :
    (variants all name).Lossless (· ∈ all) := by
  intro a ha
  cases h : all.find? fun b => name b = name a with
  | none => exact absurd (List.find?_eq_none.1 h a ha) (by simp)
  | some b =>
    have hb : name b = name a := by simpa using List.find?_some h
    rw [hname hb] at h
    exact h

/-! ## Composites -/

/-- A value in a wrapper of its own type. -/
def wrapped (c : Codec α) (wrap : α → Option β) (unwrap : β → α) : Codec β where
  write b := .newtype (c.write (unwrap b))
  read
    | .newtype t => (c.read t).bind wrap
    | _ => none

theorem Lossless.wrapped (h : c.Lossless ok) {wrap : α → Option β} {unwrap : β → α}
    (hwrap : ∀ b, ok' b → ok (unwrap b) ∧ wrap (unwrap b) = some b) : (c.wrapped wrap unwrap).Lossless ok' := by
  intro b hb
  obtain ⟨hok, hback⟩ := hwrap b hb
  show (c.read (c.write (unwrap b))).bind wrap = some b
  rw [h _ hok, Option.bind_some, hback]

def option (c : Codec α) : Codec (Option α) where
  write a := a.elim .none fun a => .some (c.write a)
  read
    | .none => some none
    | .some t => (c.read t).map some
    | _ => none

theorem Lossless.option (h : c.Lossless ok) : c.option.Lossless fun a => ∀ b ∈ a, ok b := by
  intro a ha
  cases a with
  | none => rfl
  | some a =>
    show (c.read (c.write a)).map some = some (some a)
    rw [h a (ha a rfl), Option.map_some]

def list (c : Codec α) : Codec (List α) where
  write l := .seq (l.map c.write)
  read
    | .seq ts => ts.mapM c.read
    | _ => none

/-- What is written of each element is read of each. -/
theorem mapM_read {f : α → β} {g : β → Option α} {l : List α} (h : ∀ a ∈ l, g (f a) = some a) :
    (l.map f).mapM g = some l := by
  induction l with
  | nil => rfl
  | cons a l ih =>
    rw [List.map_cons, List.mapM_cons, h a List.mem_cons_self, ih fun b hb => h b (List.mem_cons_of_mem _ hb)]
    rfl

theorem Lossless.list (h : c.Lossless ok) : c.list.Lossless fun l => ∀ a ∈ l, ok a := fun _ hl =>
  mapM_read fun a ha => h a (hl a ha)

/-- An ordered map, entry by entry; the last one wins where a key comes twice. -/
def map [LinearOrder α] (c : Codec α) (d : Codec β) : Codec (OrdMap α β) where
  write m := .map (m.entries.map fun e => (c.write e.1, d.write e.2))
  read
    | .map entries =>
      (entries.mapM fun e => (c.read e.1).bind fun k => (d.read e.2).map fun v => (k, v)).map fun entries =>
        entries.foldl (fun m e => m.insert e.1 e.2) .empty
    | _ => none

theorem Lossless.map [LinearOrder α] (h : c.Lossless ok) (h' : d.Lossless ok') :
    (c.map d).Lossless fun m => ∀ e ∈ m.entries, ok e.1 ∧ ok' e.2 := by
  intro m hm
  have hentries := mapM_read (f := fun e : α × β => (c.write e.1, d.write e.2))
    (g := fun e => (c.read e.1).bind fun k => (d.read e.2).map fun v => (k, v)) (l := m.entries) fun e he => by
      rw [h _ (hm e he).1, h' _ (hm e he).2, Option.bind_some, Option.map_some]
  show Option.map _ _ = some m
  rw [hentries, Option.map_some, OrdMap.foldl_insert_entries]

/-! ## Fields -/

/-- The value of a field, if the tree is a record that has it at most once. -/
def field (t : Tree) (name : String) : Option (Option Tree) :=
  match t with
  | .record fields =>
    match fields.filter fun f => f.1 = name with
    | [] => some none
    | [f] => some (some f.2)
    | _ => none
  | _ => none

/-- A field that has to be there. -/
def required (c : Codec α) (name : String) (t : Tree) : Option α := (field t name).bind fun value => value.bind c.read

/-- A field of an option may be left out. -/
def optional (c : Codec α) (name : String) (t : Tree) : Option (Option α) :=
  (field t name).bind fun value => value.elim (some none) c.option.read

theorem field_record {fields : List (String × Tree)} (hnodup : (fields.map Prod.fst).Nodup) {name : String} {t : Tree}
    (h : (name, t) ∈ fields) : field (.record fields) name = some (some t) := by
  have hfilter : (fields.filter fun f => f.1 = name) = [(name, t)] := by
    induction fields with
    | nil => cases h
    | cons f fields ih =>
      rw [List.map_cons, List.nodup_cons] at hnodup
      obtain ⟨hout, hnodup⟩ := hnodup
      rcases List.mem_cons.1 h with rfl | h
      · have hrest : (fields.filter fun f => f.1 = name) = [] := List.filter_eq_nil_iff.2 fun f hf hname =>
          hout (List.mem_map.2 ⟨f, hf, of_decide_eq_true hname⟩)
        rw [List.filter_cons_of_pos (by simp), hrest]
      · have hne : f.1 ≠ name := fun he => hout (he ▸ List.mem_map_of_mem h)
        rw [List.filter_cons_of_neg (by simpa using hne), ih hnodup h]
  unfold field
  simp only [hfilter]

/-- **A field is read back** from a record whose fields have different names. -/
theorem required_record {fields : List (String × Tree)} (hnodup : (fields.map Prod.fst).Nodup) (hc : c.Lossless ok)
    {name : String} {a : α} (ha : ok a) (h : (name, c.write a) ∈ fields) : c.required name (.record fields) = some a := by
  rw [required, field_record hnodup h, Option.bind_some, Option.bind_some, hc a ha]

theorem optional_record {fields : List (String × Tree)} (hnodup : (fields.map Prod.fst).Nodup) (hc : c.Lossless ok)
    {name : String} {a : Option α} (ha : ∀ b ∈ a, ok b) (h : (name, c.option.write a) ∈ fields) :
    c.optional name (.record fields) = some a := by
  rw [optional, field_record hnodup h, Option.bind_some, Option.elim_some, hc.option a ha]

/-! ## Small records -/

variable {γ δ : Type} {e : Codec γ} {ok'' : γ → Prop}

/-- A record of two fields. -/
def record2 (n m : String) (c : Codec α) (d : Codec β) (fst : δ → α) (snd : δ → β) (make : α → β → δ) : Codec δ where
  write x := .record [(n, c.write (fst x)), (m, d.write (snd x))]
  read t := do
    let a ← c.required n t
    let b ← d.required m t
    some (make a b)

/-- A record of three fields. -/
def record3 (n m k : String) (c : Codec α) (d : Codec β) (e : Codec γ) (fst : δ → α) (snd : δ → β) (thd : δ → γ)
    (make : α → β → γ → δ) : Codec δ where
  write x := .record [(n, c.write (fst x)), (m, d.write (snd x)), (k, e.write (thd x))]
  read t := do
    let a ← c.required n t
    let b ← d.required m t
    let x ← e.required k t
    some (make a b x)

theorem Lossless.record2 {n m : String} (hname : n ≠ m) (h : c.Lossless ok) (h' : d.Lossless ok') {fst : δ → α} {snd : δ → β}
    {make : α → β → δ} (hmake : ∀ x, make (fst x) (snd x) = x) :
    (Codec.record2 n m c d fst snd make).Lossless fun x => ok (fst x) ∧ ok' (snd x) := by
  intro x hx
  have hnodup : ([(n, c.write (fst x)), (m, d.write (snd x))].map Prod.fst).Nodup := by simpa using hname
  have hfst := required_record hnodup h hx.1 List.mem_cons_self
  have hsnd := required_record hnodup h' hx.2 (List.mem_cons_of_mem _ List.mem_cons_self)
  simp only [Codec.record2, hfst, hsnd, Option.bind_eq_bind, Option.bind_some, hmake]

theorem Lossless.record3 {n m k : String} (hname : [n, m, k].Nodup) (h : c.Lossless ok) (h' : d.Lossless ok')
    (h'' : e.Lossless ok'') {fst : δ → α} {snd : δ → β} {thd : δ → γ} {make : α → β → γ → δ}
    (hmake : ∀ x, make (fst x) (snd x) (thd x) = x) :
    (Codec.record3 n m k c d e fst snd thd make).Lossless fun x => ok (fst x) ∧ ok' (snd x) ∧ ok'' (thd x) := by
  intro x hx
  have hnodup : ([(n, c.write (fst x)), (m, d.write (snd x)), (k, e.write (thd x))].map Prod.fst).Nodup := hname
  have hfst := required_record hnodup h hx.1 List.mem_cons_self
  have hsnd := required_record hnodup h' hx.2.1 (List.mem_cons_of_mem _ List.mem_cons_self)
  have hthd := required_record hnodup h'' hx.2.2 (List.mem_cons_of_mem _ (List.mem_cons_of_mem _ List.mem_cons_self))
  simp only [Codec.record3, hfst, hsnd, hthd, Option.bind_eq_bind, Option.bind_some, hmake]

/-! ## What is read -/

/-- Whatever tree it is given, the codec reads values that meet `ok` only. -/
def Within (ok : α → Prop) (c : Codec α) : Prop := ∀ t a, c.read t = some a → ok a

theorem within_unsigned (w : Nat) : (unsigned w).Within (· < 2 ^ w) := by
  intro t n h
  cases t with
  | int i =>
    have h : (if 0 ≤ i ∧ i < 2 ^ w then some i.toNat else none) = some n := h
    split at h
    · rename_i hfits
      cases h
      have hcast : ((2 ^ w : Nat) : Int) = 2 ^ w := by push_cast; rfl
      omega
    · cases h
  | _ => cases h

theorem Within.required (h : c.Within ok) {name : String} {t : Tree} {a : α} (hr : c.required name t = some a) : ok a := by
  obtain ⟨value, -, hr⟩ := Option.bind_eq_some_iff.1 hr
  obtain ⟨u, -, hr⟩ := Option.bind_eq_some_iff.1 hr
  exact h u a hr

theorem Within.optional (h : c.Within ok) {name : String} {t : Tree} {a : Option α} (hr : c.optional name t = some a) :
    ∀ b ∈ a, ok b := by
  obtain ⟨value, -, hr⟩ := Option.bind_eq_some_iff.1 hr
  cases value with
  | none =>
    cases hr
    exact fun b hb => by cases hb
  | some u =>
    have hr : c.option.read u = some a := hr
    cases u with
    | none =>
      cases hr
      exact fun b hb => by cases hb
    | some v =>
      obtain ⟨x, hx, rfl⟩ := Option.map_eq_some_iff.1 hr
      rintro b hb
      cases hb
      exact h v x hx
    | _ => cases hr

theorem Within.list (h : c.Within ok) : c.list.Within fun l => ∀ a ∈ l, ok a := by
  intro t l hr
  cases t with
  | seq ts =>
    replace hr : ts.mapM c.read = some l := hr
    induction ts generalizing l with
    | nil =>
      cases hr
      exact fun a ha => by cases ha
    | cons u ts ih =>
      rw [List.mapM_cons] at hr
      obtain ⟨x, hx, hr⟩ := Option.bind_eq_some_iff.1 hr
      obtain ⟨xs, hxs, hr⟩ := Option.bind_eq_some_iff.1 hr
      cases hr
      rintro a ha
      rcases List.mem_cons.1 ha with rfl | ha
      · exact h u a hx
      · exact ih xs hxs a ha
  | _ => cases hr

theorem Within.record2 {n m : String} (h : c.Within ok) (h' : d.Within ok') {fst : δ → α} {snd : δ → β} {make : α → β → δ} :
    (Codec.record2 n m c d fst snd make).Within fun x => ∃ a b, ok a ∧ ok' b ∧ x = make a b := by
  intro t x hr
  obtain ⟨a, ha, hr⟩ := Option.bind_eq_some_iff.1 hr
  obtain ⟨b, hb, hr⟩ := Option.bind_eq_some_iff.1 hr
  cases hr
  exact ⟨a, b, h.required ha, h'.required hb, rfl⟩

theorem Within.record3 {n m k : String} (h : c.Within ok) (h' : d.Within ok') (h'' : e.Within ok'') {fst : δ → α} {snd : δ → β}
    {thd : δ → γ} {make : α → β → γ → δ} :
    (Codec.record3 n m k c d e fst snd thd make).Within fun x => ∃ a b y, ok a ∧ ok' b ∧ ok'' y ∧ x = make a b y := by
  intro t x hr
  obtain ⟨a, ha, hr⟩ := Option.bind_eq_some_iff.1 hr
  obtain ⟨b, hb, hr⟩ := Option.bind_eq_some_iff.1 hr
  obtain ⟨y, hy, hr⟩ := Option.bind_eq_some_iff.1 hr
  cases hr
  exact ⟨a, b, y, h.required ha, h'.required hb, h''.required hy, rfl⟩

end Codec

end DoubleEntry.Core
