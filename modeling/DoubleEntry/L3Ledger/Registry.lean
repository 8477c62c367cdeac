import DoubleEntry.Core.LTS
import DoubleEntry.Core.Scan
import DoubleEntry.L3Ledger.Account

/-!
# Runs of the account registry

The registry keeps an ordered index of its paths and a count for each account. Over any
calls, succeeding or not (`calls`), the index is the inverse of the list of accounts and
the count of an account is the number of accounts below it (`Indexed`). The count is kept
from both sides: a registration adds one to its ancestors and counts the descendants that
are there, by a scan of the index.

**Assumptions.** None: any calls, with any paths and dates, on a new registry.

**Results.**
* `Indexed.length_descendantRange`, `getElem?_countChild_foldl`: the count from either side.
* `registry_represents`: index, counts, descendants and handles.
* `Indexed.fromRecords_records`: the records of a registry rebuild it.
* `bindings_stay`: a binding is proven at every size it was part of.
-/
namespace DoubleEntry.L3

open DoubleEntry.Core DoubleEntry.L1 DoubleEntry.L2

/-! ## Paths -/

namespace AccountPath

variable {p q r : AccountPath}

@[ext] theorem ext_segments (h : p.segments = q.segments) : p = q := by
  cases p
  cases q
  cases h
  rfl

theorem isUnder_iff : p.isUnder q = true ↔ q.segments <+: p.segments := by
  unfold isUnder
  split
  · rename_i hlt
    refine ⟨fun h => (Bool.false_ne_true h).elim, fun h => absurd h.length_le (by omega)⟩
  · rename_i hle
    rw [List.prefix_iff_getElem?]
    simp only [List.all_eq_true, List.forall_mem_iff_getElem, decide_eq_true_iff, List.getElem_zip, List.length_zip]
    refine ⟨fun h i hi => ?_, fun h i hi => ?_⟩
    · rw [List.getElem?_eq_getElem (by omega), h i (by omega)]
    · have hget := h i (by omega)
      rw [List.getElem?_eq_getElem (by omega), Option.some.injEq] at hget
      exact hget

/-- `p` is a strict descendant of `q`. -/
def Below (p q : AccountPath) : Prop := q.segments <+: p.segments ∧ p ≠ q

instance (p q : AccountPath) : Decidable (p.Below q) :=
  decidable_of_iff (p.isUnder q = true ∧ p ≠ q) (and_congr_left' isUnder_iff)

theorem not_below_self (p : AccountPath) : ¬ p.Below p := fun h => h.2 rfl

theorem le_iff : p ≤ q ↔ p.segments ≤ q.segments := Iff.rfl

theorem segments_ne_nil (p : AccountPath) : p.segments ≠ [] := by
  intro h
  have hc := p.checked
  rw [h] at hc
  cases hc

/-! ### Text -/

/-- `Display`. mirrors src/account.rs:244-257 -/
def display (p : AccountPath) : List Char := [':'].intercalate (p.segments.map String.toList)

/-- mirrors src/account.rs:144-150 -/
def parse (s : List Char) : Except PathError AccountPath :=
  if s.isEmpty then .error .empty else fromSegments ((s.splitOn ':').map String.ofList)

/-- No segment has the separator in it. -/
def Plain (p : AccountPath) : Prop := ∀ seg ∈ p.segments, ':' ∉ seg.toList

instance (p : AccountPath) : Decidable p.Plain := inferInstanceAs (Decidable (∀ seg ∈ p.segments, ':' ∉ seg.toList))

theorem toList_ne_nil {raw : List String} {i : Nat} (h : checkSegments i raw = .ok ()) :
    ∀ seg ∈ raw, seg.toList ≠ [] := by
  induction raw generalizing i with
  | nil => exact fun seg hm => absurd hm List.not_mem_nil
  | cons first raw ih =>
    simp only [checkSegments] at h
    split at h
    · cases h
    · rename_i hfirst
      intro seg hm hnil
      rcases List.mem_cons.1 hm with rfl | hm
      · simp [checkSegment, hnil] at hfirst
      · exact ih h seg hm hnil

theorem segment_ne_nil (p : AccountPath) : ∀ seg ∈ p.segments, seg.toList ≠ [] := by
  have h := p.checked
  unfold check at h
  split at h
  · cases h
  · split at h
    · cases h
    · exact toList_ne_nil h

theorem parse_display (h : p.Plain) : parse p.display = .ok p := by
  have hne : p.segments.map String.toList ≠ [] := fun h0 => p.segments_ne_nil (List.map_eq_nil_iff.1 h0)
  have hcolon : ∀ seg ∈ p.segments.map String.toList, ':' ∉ seg := List.forall_mem_map.2 h
  have hsplit := List.splitOn_intercalate ':' hcolon hne
  have htext : p.display ≠ [] := fun h0 => by
    rw [show [':'].intercalate (p.segments.map String.toList) = [] from h0] at hsplit
    have hmem : ([] : List Char) ∈ p.segments.map String.toList := by rw [← hsplit]; simp
    obtain ⟨seg, hseg, hnil⟩ := List.mem_map.1 hmem
    exact p.segment_ne_nil seg hseg hnil
  have hsegments : (p.display.splitOn ':').map String.ofList = p.segments := by
    rw [display, hsplit, List.map_map]
    exact (List.map_congr_left fun seg _ => String.ofList_toList).trans (List.map_id _)
  rw [parse, if_neg (by simpa using htext), hsegments]
  unfold fromSegments
  split
  · rfl
  · rename_i hcheck
    rw [p.checked] at hcheck
    cases hcheck

theorem display_inj (hp : p.Plain) (hq : q.Plain) : p.display = q.display ↔ p = q := by
  refine ⟨fun h => ?_, congrArg display⟩
  have hread := parse_display hp
  rw [h, parse_display hq] at hread
  exact (Except.ok.inj hread).symm

/-! ### Ancestors -/

theorem segments_parent (h : p.parent = some q) : q.segments = p.segments.dropLast := by
  unfold parent at h
  split at h
  · cases h
  · cases h
    exact List.dropLast_eq_take.symm

theorem parent_none (h : p.parent = none) : p.segments.length = 1 := by
  have hpos := List.length_pos_of_ne_nil p.segments_ne_nil
  unfold parent at h
  split at h
  · omega
  · cases h

/-- The strict ancestors are the parent and its ancestors. -/
theorem below_iff_parent : p.Below q ↔ ∃ s, p.parent = some s ∧ q.segments <+: s.segments := by
  have hpos := List.length_pos_of_ne_nil q.segments_ne_nil
  constructor
  · intro ⟨hbelow, hne⟩
    have hlt : q.segments.length < p.segments.length := by
      refine lt_of_le_of_ne hbelow.length_le fun heq => hne ?_
      exact ext_segments (hbelow.eq_of_length heq).symm
    cases hparent : p.parent with
    | none =>
      have := parent_none hparent
      omega
    | some s =>
      refine ⟨s, rfl, List.prefix_of_prefix_length_le hbelow ?_ ?_⟩
      · rw [segments_parent hparent]
        exact List.dropLast_prefix _
      · rw [segments_parent hparent, List.length_dropLast]
        omega
  · rintro ⟨s, hparent, hbelow⟩
    rw [segments_parent hparent] at hbelow
    refine ⟨hbelow.trans (List.dropLast_prefix _), fun heq => ?_⟩
    have hle := hbelow.length_le
    rw [← heq, List.length_dropLast] at hle
    have := List.length_pos_of_ne_nil p.segments_ne_nil
    omega

theorem mem_ancestorsLoop {fuel : Nat} {out : List AccountPath} (h : ∀ s, p.parent = some s → s.segments.length ≤ fuel) :
    q ∈ ancestorsLoop fuel p.parent out ↔ p.Below q ∨ q ∈ out := by
  induction fuel generalizing p out with
  | zero =>
    cases hparent : p.parent with
    | none => simp [ancestorsLoop, below_iff_parent, hparent]
    | some s => exact absurd (List.length_pos_of_ne_nil s.segments_ne_nil) (not_lt.2 (h s hparent))
  | succ fuel ih =>
    cases hparent : p.parent with
    | none => simp [ancestorsLoop, below_iff_parent, hparent]
    | some s =>
      have hfuel : ∀ u, s.parent = some u → u.segments.length ≤ fuel := fun u hu => by
        have := h s hparent
        rw [segments_parent hu, List.length_dropLast]
        omega
      have hbelow : p.Below q ↔ s.Below q ∨ q = s := by
        rw [below_iff_parent, hparent]
        simp only [Option.some.injEq, exists_eq_left']
        by_cases hqs : q = s
        · simp [hqs]
        · simp [Below, hqs, Ne.symm hqs]
      rw [ancestorsLoop, ih hfuel, List.mem_cons, hbelow, or_assoc]

theorem mem_ancestors : q ∈ p.ancestors ↔ p.Below q := by
  have hfuel : ∀ s, p.parent = some s → s.segments.length ≤ p.segments.length := fun s hs => by
    rw [segments_parent hs, List.length_dropLast]
    omega
  rw [ancestors, mem_ancestorsLoop hfuel]
  simp

theorem nodup_ancestorsLoop {fuel : Nat} {out : List AccountPath} (hout : out.Nodup) (h : ∀ q ∈ out, ¬ p.Below q) :
    (ancestorsLoop fuel p.parent out).Nodup := by
  induction fuel generalizing p out with
  | zero => cases p.parent <;> exact hout
  | succ fuel ih =>
    cases hparent : p.parent with
    | none => exact hout
    | some s =>
      rw [ancestorsLoop]
      refine ih (List.nodup_cons.2 ⟨fun hs => ?_, hout⟩) fun q hq hbelow => ?_
      · exact h s hs (below_iff_parent.2 ⟨s, hparent, List.prefix_rfl⟩)
      · rcases List.mem_cons.1 hq with rfl | hq
        · exact not_below_self q hbelow
        · exact h q hq (below_iff_parent.2 ⟨s, hparent, hbelow.1⟩)

theorem nodup_ancestors (p : AccountPath) : p.ancestors.Nodup := nodup_ancestorsLoop .nil (by simp)

end AccountPath

/-! ## The index and the counts -/

namespace AccountRegistry

variable {r r' : AccountRegistry} {id : AccountId} {account : Account} {path : AccountPath}

/-- mirrors src/account.rs:1017-1025 -/
def descendantsOf (r : AccountRegistry) (pre : AccountPath) : List AccountId :=
  ((r.index.atLeast pre).takeWhile fun e => e.1.isUnder pre).map Prod.snd

/-- The index is the inverse of the list of paths, and each count is that of the
descendants. -/
structure Indexed (r : AccountRegistry) : Prop where
  index : ∀ path id, r.index.get? path = some id ↔ r.paths[id.index]? = some path
  counted : r.childCount = r.paths.map fun p => r.paths.countP (·.Below p)

theorem length_paths (r : AccountRegistry) : r.paths.length = r.len := List.length_map _

theorem getElem?_paths (id : AccountId) : r.paths[id.index]? = (r.get id).map Account.path := List.getElem?_map

namespace Indexed

theorem new : Indexed .new := ⟨fun path id => by simp [AccountRegistry.new, paths], rfl⟩

theorem nodup (h : r.Indexed) : r.paths.Nodup := by
  rw [List.nodup_iff_injective_get]
  intro i j hij
  have hbound : r.paths.length ≤ 2 ^ 32 := r.length_paths.trans_le r.bounded
  have hi := (h.index _ ⟨i, by omega⟩).2 (List.getElem?_eq_getElem i.isLt)
  have hj := (h.index _ ⟨j, by omega⟩).2 (List.getElem?_eq_getElem j.isLt)
  simp only [List.get_eq_getElem] at hij
  rw [hij, hj] at hi
  exact Fin.ext (congrArg AccountId.index (Option.some.inj hi)).symm

/-- The index has the paths of the list. -/
theorem keys_perm (h : r.Indexed) : (r.index.entries.map Prod.fst).Perm r.paths := by
  have hkeys : (r.index.entries.map Prod.fst).Nodup :=
    List.pairwise_map.2 (r.index.increasing.imp fun hlt => hlt.ne)
  refine (List.perm_ext_iff_of_nodup hkeys h.nodup).2 fun path => ?_
  constructor
  · intro hmem
    obtain ⟨e, he, rfl⟩ := List.mem_map.1 hmem
    exact List.mem_of_getElem? ((h.index e.1 e.2).1 (OrdMap.mem_entries.1 he))
  · intro hmem
    obtain ⟨i, hi, hget⟩ := List.getElem_of_mem hmem
    have hbound : r.paths.length ≤ 2 ^ 32 := r.length_paths.trans_le r.bounded
    have hid := (h.index path ⟨i, by omega⟩).2 (List.getElem?_eq_some_iff.2 ⟨hi, hget⟩)
    exact List.mem_map.2 ⟨(path, _), OrdMap.mem_entries.2 hid, rfl⟩

/-- Every path that is not in the list is free. -/
theorem free (h : r.Indexed) : r.index.contains path = false ↔ path ∉ r.paths := by
  rw [← h.keys_perm.mem_iff, ← Bool.not_eq_true, OrdMap.contains_iff, not_iff_not]
  constructor
  · rintro ⟨id, hid⟩
    exact List.mem_map.2 ⟨(path, id), OrdMap.mem_entries.2 hid, rfl⟩
  · intro hmem
    obtain ⟨e, he, rfl⟩ := List.mem_map.1 hmem
    exact ⟨e.2, OrdMap.mem_entries.1 he⟩

end Indexed

/-! ### Scans -/

theorem under_gap (pre : AccountPath) : ∀ a b : AccountPath, pre ≤ a → a ≤ b → b.isUnder pre = true → a.isUnder pre = true :=
  fun _ _ hpre hab hb => AccountPath.isUnder_iff.2 (prefix_of_between (AccountPath.isUnder_iff.1 hb) hpre hab)

theorem scan_eq_filter (pre : AccountPath) :
    ((r.index.atLeast pre).takeWhile fun e => e.1.isUnder pre) = r.index.entries.filter fun e => e.1.isUnder pre := by
  have hfirst : ∀ path : AccountPath, path.isUnder pre = true → pre ≤ path := fun path h =>
    AccountPath.le_iff.2 (prefix_le (AccountPath.isUnder_iff.1 h))
  exact OrdMap.scan_eq_filter hfirst (under_gap pre)

theorem descendantRange_eq (pre : AccountPath) :
    r.descendantRange pre = r.index.entries.filter fun e => decide (e.1.Below pre) := by
  have hrest : ((r.index.atLeast pre).filter fun e => decide (e.1 ≠ pre)).Pairwise
      fun a b => b.1.isUnder pre = true → a.1.isUnder pre = true := by
    refine ((OrdMap.increasing_atLeast r.index pre).filter _).imp_of_mem fun {a b} ha _ hlt => ?_
    exact under_gap pre a.1 b.1 (OrdMap.mem_atLeast.1 (List.mem_filter.1 ha).1).2 hlt.le
  rw [descendantRange, OrdMap.skip_eq_filter, takeWhile_eq_filter hrest, OrdMap.atLeast, List.filter_filter,
    List.filter_filter]
  refine List.filter_congr fun e _ => ?_
  rw [Bool.eq_iff_iff]
  simp only [Bool.and_eq_true, decide_eq_true_iff, AccountPath.isUnder_iff]
  exact ⟨And.left, fun h => ⟨h, AccountPath.le_iff.2 (prefix_le h.1)⟩⟩

/-- The scan of a registration counts the descendants that are there. -/
theorem Indexed.length_descendantRange (h : r.Indexed) (pre : AccountPath) :
    (r.descendantRange pre).length = r.paths.countP (·.Below pre) := by
  rw [descendantRange_eq, ← h.keys_perm.countP_eq, List.countP_map, List.countP_eq_length_filter]
  rfl

theorem Indexed.mem_descendantsOf (h : r.Indexed) {pre : AccountPath} :
    id ∈ r.descendantsOf pre ↔ ∃ a, r.get id = some a ∧ pre.segments <+: a.path.segments := by
  rw [descendantsOf, scan_eq_filter]
  constructor
  · intro hmem
    obtain ⟨e, he, rfl⟩ := List.mem_map.1 hmem
    obtain ⟨he, hunder⟩ := List.mem_filter.1 he
    have hget := (h.index e.1 e.2).1 (OrdMap.mem_entries.1 he)
    rw [getElem?_paths, Option.map_eq_some_iff] at hget
    obtain ⟨a, ha, hpath⟩ := hget
    exact ⟨a, ha, hpath ▸ AccountPath.isUnder_iff.1 hunder⟩
  · rintro ⟨a, ha, hbelow⟩
    have hget := (h.index a.path id).2 (by rw [getElem?_paths, ha]; rfl)
    refine List.mem_map.2 ⟨(a.path, id), List.mem_filter.2 ⟨OrdMap.mem_entries.2 hget, ?_⟩, rfl⟩
    exact AccountPath.isUnder_iff.2 hbelow

theorem Indexed.nodup_descendantsOf (h : r.Indexed) (pre : AccountPath) : (r.descendantsOf pre).Nodup := by
  rw [descendantsOf, scan_eq_filter, List.nodup_iff_pairwise_ne, List.pairwise_map]
  refine (r.index.increasing.filter _).imp_of_mem fun {a b} ha hb hlt heq => hlt.ne ?_
  have hpa := (h.index a.1 a.2).1 (OrdMap.mem_entries.1 (List.mem_filter.1 ha).1)
  have hpb := (h.index b.1 b.2).1 (OrdMap.mem_entries.1 (List.mem_filter.1 hb).1)
  rw [heq, hpb] at hpa
  exact (Option.some.inj hpa).symm

/-! ### Registration -/

theorem getElem?_countChild {counts : List Nat} {ancestor : AccountPath} {i : Nat} :
    (r.countChild counts ancestor)[i]? =
      counts[i]?.map fun c => if (r.index.get? ancestor).any (·.index = i) then min (c + 1) u32Max else c := by
  unfold countChild
  cases hget : r.index.get? ancestor with
  | none => simp
  | some parent =>
    rw [List.getElem?_modify]
    by_cases hi : parent.index = i <;> simp [hi]

/-- Each ancestor in the index adds one to its count. -/
theorem getElem?_countChild_foldl {ancestors : List AccountPath} {counts : List Nat} {i c : Nat} (hget : counts[i]? = some c)
    (hc : c ≤ u32Max) : (ancestors.foldl r.countChild counts)[i]? =
      some (min (c + ancestors.countP fun a => (r.index.get? a).any (·.index = i)) u32Max) := by
  induction ancestors generalizing counts c with
  | nil => simpa [hget] using hc
  | cons a ancestors ih =>
    rw [List.foldl_cons, List.countP_cons]
    by_cases hany : ((r.index.get? a).any (·.index = i)) = true
    · have hnext : (r.countChild counts a)[i]? = some (min (c + 1) u32Max) := by
        rw [getElem?_countChild, hget, Option.map_some, if_pos hany]
      rw [ih hnext (min_le_right _ _), if_pos hany]
      congr 1
      omega
    · have hnext : (r.countChild counts a)[i]? = some c := by
        rw [getElem?_countChild, hget, Option.map_some, if_neg hany]
      rw [ih hnext hc, if_neg hany, Nat.add_zero]

theorem length_countChild_foldl (ancestors : List AccountPath) (counts : List Nat) :
    (ancestors.foldl r.countChild counts).length = counts.length := by
  induction ancestors generalizing counts with
  | nil => rfl
  | cons a ancestors ih =>
    rw [List.foldl_cons, ih, countChild]
    cases r.index.get? a <;> simp

/-- What a registration leaves. -/
structure Registers (r : AccountRegistry) (account : Account) (id : AccountId) (r' : AccountRegistry) : Prop where
  handle : id.index = r.len
  window : account.closedEarly = none
  free : r.index.contains account.path = false
  accounts : r'.accounts = r.accounts ++ [account]
  index : r'.index = r.index.insert account.path id
  childCount : r'.childCount = account.path.ancestors.foldl r.countChild r.childCount ++
    [min (r.descendantRange account.path).length u32Max]

theorem registers_of_ok (h : r.register account = .ok (id, r')) : r.Registers account id r' := by
  unfold register at h
  split at h
  · cases h
  · rename_i hwindow
    split at h
    · cases h
    · rename_i hfree
      split at h
      · cases h
        exact ⟨rfl, hwindow, Bool.eq_false_iff.2 hfree, rfl, rfl, rfl⟩
      · cases h

theorem Registers.paths (h : r.Registers account id r') : r'.paths = r.paths ++ [account.path] := by
  rw [AccountRegistry.paths, h.accounts, List.map_append]
  rfl

theorem Registers.len_lt (h : r.Registers account id r') : r.len < 2 ^ 32 := by
  have := h.handle
  have := id.fits
  omega

/-- A count of the descendants there were, and one for a new descendant. -/
theorem Indexed.getElem?_counted (h : r.Indexed) (hr : r.Registers account id r') {i : Nat} {p : AccountPath}
    (hp : r.paths[i]? = some p) : (account.path.ancestors.foldl r.countChild r.childCount)[i]? =
      some (r.paths.countP (·.Below p) + if account.path.Below p then 1 else 0) := by
  have hi : i < r.paths.length := (List.getElem?_eq_some_iff.1 hp).1
  have hlen := hr.len_lt
  -- an account is not below itself, so its count leaves room for one more
  have hroom : r.paths.countP (·.Below p) < r.paths.length :=
    List.countP_lt_length_iff.2 ⟨p, List.mem_of_getElem? hp, by simp [AccountPath.not_below_self]⟩
  have hget : r.childCount[i]? = some (r.paths.countP (·.Below p)) := by
    rw [h.counted, List.getElem?_map, hp]
    rfl
  have hone : (account.path.ancestors.countP fun a => (r.index.get? a).any (·.index = i)) =
      if account.path.Below p then 1 else 0 := by
    have hcount : (account.path.ancestors.countP fun a => (r.index.get? a).any (·.index = i)) =
        account.path.ancestors.count p := by
      refine List.countP_congr fun a _ => ?_
      rw [Option.any_eq_true, beq_iff_eq]
      constructor
      · rintro ⟨parent, hparent, hindex⟩
        have hat := (h.index a parent).1 hparent
        rw [of_decide_eq_true hindex, hp] at hat
        exact (Option.some.inj hat).symm
      · rintro rfl
        have hfits : i < 2 ^ 32 := by rw [length_paths] at hi; omega
        exact ⟨⟨i, hfits⟩, (h.index a ⟨i, hfits⟩).2 hp, decide_eq_true rfl⟩
    rw [hcount]
    by_cases hbelow : account.path.Below p
    · rw [if_pos hbelow]
      exact List.count_eq_one_of_mem account.path.nodup_ancestors (AccountPath.mem_ancestors.2 hbelow)
    · rw [if_neg hbelow]
      exact List.count_eq_zero_of_not_mem fun hm => hbelow (AccountPath.mem_ancestors.1 hm)
  rw [length_paths] at hroom
  rw [getElem?_countChild_foldl hget (by unfold u32Max; omega), hone]
  congr 1
  split <;> (unfold u32Max; omega)

theorem Indexed.register (h : r.Indexed) (hr : r.Registers account id r') : r'.Indexed := by
  have hlen := hr.len_lt
  have hnew : r.paths[r.len]? = none := by rw [List.getElem?_eq_none_iff, length_paths]
  refine ⟨fun path k => ?_, ?_⟩
  · rw [hr.index, hr.paths, OrdMap.get?_insert, getElem?_concat_eq_some, length_paths]
    by_cases hpath : account.path = path
    · subst hpath
      have hfree : r.index.get? account.path = none := by
        have := hr.free
        rwa [OrdMap.contains, Option.isSome_eq_false_iff, Option.isNone_iff_eq_none] at this
      have hother : r.paths[k.index]? ≠ some account.path := fun hk => by
        rw [(h.index _ _).2 hk] at hfree
        cases hfree
      rw [if_pos rfl, Option.some.injEq]
      refine ⟨fun hid => .inr ⟨hid ▸ hr.handle, rfl⟩, fun hk => ?_⟩
      obtain ⟨hk, -⟩ := hk.resolve_left hother
      exact AccountId.ext (hr.handle.trans hk.symm)
    · rw [if_neg hpath, h.index]
      simp [Ne.symm hpath]
  · rw [hr.childCount, h.length_descendantRange, hr.paths, List.map_append]
    have hlast : min (r.paths.countP (·.Below account.path)) u32Max =
        (r.paths ++ [account.path]).countP (·.Below account.path) := by
      have hle : r.paths.countP (·.Below account.path) ≤ r.len := r.length_paths ▸ List.countP_le_length
      rw [List.countP_append, List.countP_singleton, if_neg (by simp [AccountPath.not_below_self]), Nat.add_zero]
      exact min_eq_left (by unfold u32Max; omega)
    refine congrArg₂ _ (List.ext_getElem? fun i => ?_) (congrArg (fun c => [c]) hlast)
    rw [List.getElem?_map]
    cases hp : r.paths[i]? with
    | none =>
      rw [Option.map_none, List.getElem?_eq_none_iff, length_countChild_foldl, h.counted, List.length_map]
      exact List.getElem?_eq_none_iff.1 hp
    | some p =>
      rw [h.getElem?_counted hr hp, Option.map_some, List.countP_append, List.countP_singleton]
      simp


/-! ### Master data -/

theorem Indexed.overwrite (h : r.Indexed) (ho : r.Overwrites r') : r'.Indexed := by
  refine ⟨fun path k => ?_, ?_⟩
  · rw [ho.index, ho.paths]
    exact h.index path k
  · rw [ho.childCount, ho.paths]
    exact h.counted

/-! ## Runs -/

/-- The mutators, with their arguments. -/
inductive Call
  | register (account : Account)
  | close (id : AccountId) (on : Date)
  | reopen (id : AccountId)
  | setLimit (id : AccountId) (limit : BalanceLimit)
  | restore (record : AccountRecord)

/-- A refused call leaves the registry as it is. -/
def after (r : AccountRegistry) : Call → AccountRegistry
  | .register account => ((r.register account).map Prod.snd).toOption.getD r
  | .close id on => (r.close id on).toOption.getD r
  | .reopen id => (r.reopen id).toOption.getD r
  | .setLimit id limit => (r.setLimit id limit).toOption.getD r
  | .restore record => (r.restore record).toOption.getD r

def calls : LTS AccountRegistry Call where
  init r := r = new
  step r k r' := r' = r.after k

/-- The path a call is issued a handle for. -/
def issues (r : AccountRegistry) : Call → Option AccountPath
  | .register account => (r.register account).toOption.map fun _ => account.path
  | .restore record =>
    if (r.get record.id).isSome then none else (r.restore record).toOption.map fun _ => record.account.path
  | _ => none

/-- What a call can do. -/
inductive Effect (r : AccountRegistry) (k : Call) (r' : AccountRegistry) : Prop
  | refused (same : r' = r) (none : r.issues k = none)
  | overwritten (writes : r.Overwrites r') (none : r.issues k = none)
  | registered {account : Account} {id : AccountId} (registers : r.Registers account id r')
      (path : r.issues k = some account.path)

theorem restore_cases {record : AccountRecord} (h : r.restore record = .ok r') :
    (r.Overwrites r' ∧ (r.get record.id).isSome) ∨ (r.Registers record.account record.id r' ∧ r.get record.id = none) := by
  unfold restore at h
  split at h
  · rename_i existing hget
    split at h
    · cases h
    · rename_i hpath
      split at h
      · cases h
      · cases h
        exact .inl ⟨overwrites_put hget (not_not.1 hpath).symm, by simp [hget]⟩
  · rename_i hnone
    split at h
    · cases h
    · rename_i hindex
      obtain ⟨⟨id, r₁⟩, hreg, rfl⟩ := map_eq_ok.1 h
      have hr := registers_of_ok hreg
      have hlt : r.accounts.length ≤ u32Max := Nat.le_pred_of_lt hr.len_lt
      have hid : id = record.id := by
        refine AccountId.ext (hr.handle.trans ?_)
        rw [not_not.1 hindex]
        exact (min_eq_left hlt).symm
      exact .inr ⟨hid ▸ hr, hnone⟩

theorem after_effect (r : AccountRegistry) (k : Call) : r.Effect k (r.after k) := by
  -- a call on master data asks for no handle
  have data : ∀ {x : Except AccountError AccountRegistry}, (∀ r', x = .ok r' → r.Overwrites r') → r.issues k = none →
      r.Effect k (x.toOption.getD r) := fun {x} h hnone => by
    cases x with
    | error e => exact .refused rfl hnone
    | ok r' => exact .overwritten (h r' rfl) hnone
  cases k with
  | register account =>
    cases h : r.register account with
    | error e => exact .refused (by rw [after, h]; rfl) (by rw [issues, h]; rfl)
    | ok x =>
      have hafter : r.after (.register account) = x.2 := by rw [after, h]; rfl
      rw [hafter]
      exact .registered (registers_of_ok h) (by rw [issues, h]; rfl)
  | close id on => exact data (fun r' => overwrites_close) rfl
  | reopen id => exact data (fun r' => overwrites_reopen) rfl
  | setLimit id limit => exact data (fun r' => overwrites_setLimit) rfl
  | restore record =>
    cases h : r.restore record with
    | error e => exact .refused (by rw [after, h]; rfl) (by rw [issues, h]; exact ite_self _)
    | ok r' =>
      have hafter : r.after (.restore record) = r' := by rw [after, h]; rfl
      rw [hafter]
      rcases restore_cases h with ⟨ho, hheld⟩ | ⟨hr, hnone⟩
      · exact .overwritten ho (by rw [issues, if_pos hheld])
      · exact .registered hr (by rw [issues, hnone, h]; rfl)

theorem indexed_inductive : calls.Inductive Indexed := by
  refine ⟨fun r h => h ▸ .new, fun r k r' h st => ?_⟩
  obtain rfl : r' = r.after k := st
  cases r.after_effect k with
  | refused same =>
    rw [same]
    exact h
  | overwritten writes => exact h.overwrite writes
  | registered registers => exact h.register registers

/-- The paths that a list of calls is issued handles for. -/
def issued (r : AccountRegistry) : List Call → List AccountPath
  | [] => []
  | k :: ks => (r.issues k).toList ++ (r.after k).issued ks

theorem paths_after (r : AccountRegistry) (k : Call) : (r.after k).paths = r.paths ++ (r.issues k).toList := by
  cases r.after_effect k with
  | refused same none => rw [same, none, Option.toList_none, List.append_nil]
  | overwritten writes none => rw [writes.paths, none, Option.toList_none, List.append_nil]
  | registered registers path => rw [registers.paths, path, Option.toList_some]

theorem paths_of_run {ks : List Call} (h : calls.Run r ks r') : r'.paths = r.paths ++ r.issued ks := by
  induction h with
  | nil r => simp [issued]
  | @cons q u r k ks st _ ih =>
    obtain rfl : u = q.after k := st
    rw [ih, paths_after, issued, List.append_assoc]

/-- The registry after a list of calls. -/
def afterAll (r : AccountRegistry) (ks : List Call) : AccountRegistry := ks.foldl after r

theorem run_afterAll (r : AccountRegistry) (ks : List Call) : calls.Run r ks (r.afterAll ks) := by
  induction ks generalizing r with
  | nil => exact .nil r
  | cons k ks ih => exact .cons rfl (ih _)

/-- What the operations of the registry stand for. -/
structure Represents (r : AccountRegistry) : Prop where
  handles : ∀ id, (r.get id).isSome ↔ id.index < r.len
  next : ∀ account id r', r.register account = .ok (id, r') → id.index = r.len
  inverse : ∀ path id, r.idOf path = some id ↔ ∃ a, r.get id = some a ∧ a.path = path
  counts : ∀ id a, r.get id = some a →
    r.childCount[id.index]? = some (r.accounts.filter fun b => b.path.Below a.path).length
  leaves : ∀ id a, r.get id = some a → (r.isLeaf id = true ↔ ∀ b ∈ r.accounts, ¬ b.path.Below a.path)
  descendants : ∀ pre id, id ∈ r.descendantsOf pre ↔ ∃ a, r.get id = some a ∧ pre.segments <+: a.path.segments
  once : ∀ pre, (r.descendantsOf pre).Nodup

theorem Indexed.counts (h : r.Indexed) {a : Account} (hget : r.get id = some a) :
    r.childCount[id.index]? = some (r.accounts.filter fun b => b.path.Below a.path).length := by
  rw [h.counted, List.getElem?_map, getElem?_paths, hget, ← List.countP_eq_length_filter, paths]
  exact congrArg some List.countP_map

theorem Indexed.isLeaf_iff (h : r.Indexed) {a : Account} (hget : r.get id = some a) :
    r.isLeaf id = true ↔ ∀ b ∈ r.accounts, ¬ b.path.Below a.path := by
  rw [isLeaf, h.counts hget, Option.getD_some, decide_eq_true_iff, List.length_eq_zero_iff, List.filter_eq_nil_iff]
  simp only [decide_eq_true_iff]

theorem Indexed.represents (h : r.Indexed) : r.Represents where
  handles id := by simp [get, len]
  next _ _ _ hok := (registers_of_ok hok).handle
  inverse path id := by rw [idOf, h.index, getElem?_paths, Option.map_eq_some_iff]
  counts _ _ := h.counts
  leaves _ _ := h.isLeaf_iff
  descendants _ _ := h.mem_descendantsOf
  once := h.nodup_descendantsOf

/-- **The registry represents a tree of accounts**, and the handles are the positions
of the paths in the order they were issued. -/
theorem registry_represents {ks : List Call} (h : calls.Run new ks r) : r.Represents ∧ r.paths = new.issued ks :=
  ⟨(indexed_inductive.reachable ⟨new, ks, rfl, h⟩).represents, paths_of_run h⟩

/-- Two accounts; the parent of the first one is registered after it. -/
def parentLater : List Call :=
  [.register (.new ⟨["Expenses", "Rent"], rfl⟩ ⟨2025, 7, 1, by decide⟩),
    .register (.new ⟨["Income", "Interest"], rfl⟩ ⟨2025, 7, 1, by decide⟩),
    .register (.new ⟨["Expenses"], rfl⟩ ⟨2025, 7, 1, by decide⟩)]

def firstId : AccountId := .ofPosition 0
def parentId : AccountId := .ofPosition 2

/-- Not vacuous: the parent is no leaf, and both are below it. -/
theorem parentLater_represents : (new.afterAll parentLater).isLeaf parentId = false ∧
    (new.afterAll parentLater).descendantsOf ⟨["Expenses"], rfl⟩ = [parentId, firstId] ∧
    (new.afterAll parentLater).Represents ∧ (new.afterAll parentLater).paths = new.issued parentLater :=
  ⟨by decide, by decide, registry_represents (run_afterAll _ _)⟩

/-! ## Records -/

/-- The accounts at their handles. -/
def recordsOf (accounts : List Account) : List AccountRecord := accounts.zipIdx.map fun e => ⟨.ofPosition e.2, e.1⟩

/-- mirrors src/account.rs:801-810 -/
def records (r : AccountRegistry) : List AccountRecord := recordsOf r.accounts

theorem recordsOf_concat (accounts : List Account) (account : Account) :
    recordsOf (accounts ++ [account]) = recordsOf accounts ++ [⟨.ofPosition accounts.length, account⟩] := by
  simp [recordsOf, List.zipIdx_append]

theorem increasing_recordsOf {accounts : List Account} (h : accounts.length ≤ 2 ^ 32) :
    (recordsOf accounts).Pairwise fun a b => a.id.index < b.id.index := by
  induction accounts using List.reverseRecOn with
  | nil => exact .nil
  | append_singleton accounts account ih =>
    rw [List.length_append, List.length_singleton] at h
    rw [recordsOf_concat, List.pairwise_append]
    refine ⟨ih (by omega), List.pairwise_singleton _ _, fun a ha b hb => ?_⟩
    obtain ⟨e, he, rfl⟩ := List.mem_map.1 ha
    obtain rfl := List.mem_singleton.1 hb
    have hlt : e.2 < accounts.length := (List.mem_zipIdx he).2.1.trans_eq (Nat.zero_add _)
    simp only [AccountId.ofPosition, dif_pos (show e.2 < 2 ^ 32 by omega),
      dif_pos (show accounts.length < 2 ^ 32 by omega)]
    exact hlt

/-- The records of a registry are those of its handles. -/
theorem mem_records {r : AccountRegistry} {record : AccountRecord} :
    record ∈ r.records ↔ r.get record.id = some record.account := by
  have hbound := r.bounded
  rw [records, recordsOf, List.mem_map]
  constructor
  · rintro ⟨e, he, rfl⟩
    have hget := List.mem_zipIdx_iff_getElem?.1 he
    have hlt : e.2 < r.accounts.length := (List.getElem?_eq_some_iff.1 hget).1
    rw [get, AccountId.ofPosition, dif_pos (by omega)]
    exact hget
  · intro hget
    exact ⟨(record.account, record.id.index), List.mem_zipIdx_iff_getElem?.2 hget, by rw [AccountId.ofPosition_index]⟩

theorem register_ok (h : r.Indexed) (hwindow : account.closedEarly = none) (hfree : account.path ∉ r.paths)
    (hlen : r.len < 2 ^ 32) : ∃ id r', r.register account = .ok (id, r') := by
  have hindex : r.index.contains account.path = false := h.free.2 hfree
  simp only [register, hwindow, hindex]
  exact ⟨_, _, dif_pos hlen⟩

/-- The next handle is restored as a registration. -/
theorem restore_next {record : AccountRecord} (hid : record.id.index = r.len) (hlen : r.len < 2 ^ 32) :
    r.restore record = (r.register record.account).map Prod.snd := by
  have hget : r.get record.id = none := by
    rw [get, List.getElem?_eq_none_iff, hid]
    exact le_rfl
  have hnext : min r.accounts.length u32Max = record.id.index := by
    rw [hid]
    exact min_eq_left (Nat.le_pred_of_lt hlen)
  simp only [restore, hget, hnext, ne_eq, not_true_eq_false, if_false]

/-- Records of distinct paths, all of them closed after they open, are restored one
after another. -/
theorem foldlM_restore {accounts : List Account} (hpaths : (accounts.map Account.path).Nodup)
    (hwindow : ∀ a ∈ accounts, a.closedEarly = none) (hlen : accounts.length ≤ 2 ^ 32) :
    ∃ q, (recordsOf accounts).foldlM restore new = .ok q ∧ q.accounts = accounts ∧ q.Indexed := by
  induction accounts using List.reverseRecOn with
  | nil => exact ⟨new, rfl, rfl, .new⟩
  | append_singleton accounts account ih =>
    rw [List.length_append, List.length_singleton] at hlen
    rw [List.map_append, List.nodup_append] at hpaths
    obtain ⟨q, hq, haccounts, hindexed⟩ := ih hpaths.1 (fun a ha => hwindow a (List.mem_append_left _ ha)) (by omega)
    have hlast : q.len < 2 ^ 32 := by rw [len, haccounts]; omega
    have hfree : account.path ∉ q.paths := by
      rw [paths, haccounts]
      exact fun hm => hpaths.2.2 _ hm account.path (by simp) rfl
    obtain ⟨id, q', hreg⟩ := register_ok hindexed (hwindow account (by simp)) hfree hlast
    have hregisters := registers_of_ok hreg
    have hid : (AccountId.ofPosition accounts.length).index = q.len := by
      rw [AccountId.ofPosition, dif_pos (by omega), len, haccounts]
    refine ⟨q', ?_, by rw [hregisters.accounts, haccounts], hindexed.register hregisters⟩
    rw [recordsOf_concat, List.foldlM_append, hq]
    have hrestore : q.restore ⟨.ofPosition accounts.length, account⟩ = .ok q' := by
      rw [restore_next hid hlast, hreg]
      rfl
    exact bind_eq_ok.2 ⟨q, rfl, bind_eq_ok.2 ⟨q', hrestore, rfl⟩⟩

theorem Indexed.ext {q : AccountRegistry} (h : r.Indexed) (hq : q.Indexed) (haccounts : q.accounts = r.accounts) : q = r := by
  have hpaths : q.paths = r.paths := congrArg (List.map Account.path) haccounts
  have hindex : q.index = r.index := OrdMap.ext_get? fun path => by
    refine Option.ext fun id => ?_
    rw [h.index, hq.index, hpaths]
  have hcounts : q.childCount = r.childCount := by rw [h.counted, hq.counted, hpaths]
  cases q; cases r
  simp only [mk.injEq]
  exact ⟨haccounts, hindex, hcounts⟩

/-- **The records of a registry rebuild it.** -/
theorem Indexed.fromRecords_records (h : r.Indexed) (hwindow : ∀ a ∈ r.accounts, a.closedEarly = none) :
    fromRecords r.records = .ok r := by
  obtain ⟨q, hq, haccounts, hindexed⟩ := foldlM_restore h.nodup hwindow r.bounded
  obtain rfl : q = r := h.ext hindexed haccounts
  rw [fromRecords, records, List.Pairwise.insertionSort_eq ((increasing_recordsOf q.bounded).imp le_of_lt)]
  exact hq

/-! ## Bindings -/

theorem grows_of_run {ks : List Call} (h : calls.Run r ks r') : r.Grows r' := by
  show r.paths <+: r'.paths
  rw [paths_of_run h]
  exact List.prefix_append _ _

section
variable {H : Type} [Blake3 H] {size : Nat} {p : AccountBindingProof H}

theorem path_of_proveBindingAt (h : r.proveBindingAt id size = some p) : r.paths[id.index]? = some p.path := by
  unfold proveBindingAt at h
  split at h
  · cases h
  · cases hget : r.get id with
    | none => simp [hget] at h
    | some a =>
      simp only [hget] at h
      split at h
      · cases h
      · cases h
        rw [getElem?_paths, hget]
        rfl

/-- **Bindings stay provable.** Whatever happens to the registry later, a handle it had
issued is proven at its size, with the path it was issued for, against the commitment
taken then. -/
theorem bindings_stay [DecidableEq H] {ks ms : List Call} (before : calls.Run new ks r) (later : calls.Run r ms r')
    (id : AccountId) :
    ((r'.proveBindingAt id r.len : Option (AccountBindingProof H)).isSome ↔ id.index < r.len) ∧
    ∀ p : AccountBindingProof H, r'.proveBindingAt id r.len = some p →
      p.id = id ∧ (new.issued ks)[id.index]? = some p.path ∧ p.verify r.commitment = true := by
  have hgrows := grows_of_run later
  by_cases hid : id.index < r.len
  · obtain ⟨p, hp, hpid, hverify⟩ := proveBindingAt_verifies (H := H) hgrows hid
    refine ⟨by simp [hp, hid], fun q hq => ?_⟩
    obtain rfl : p = q := Option.some.inj (hp.symm.trans hq)
    refine ⟨hpid, ?_, hverify⟩
    have hpath := path_of_proveBindingAt hp
    rw [paths_of_run later, List.getElem?_append_left (by rwa [length_paths])] at hpath
    rwa [paths_of_run before] at hpath
  · have hnone : (r'.proveBindingAt id r.len : Option (AccountBindingProof H)) = none := proveBindingAt_none (not_lt.1 hid)
    refine ⟨by simp [hnone, hid], fun q hq => ?_⟩
    rw [hnone] at hq
    cases hq

end

def firstOnly : AccountRegistry := new.afterAll (parentLater.take 1)

/-- Two more; the first one is closed, and its record is restored. -/
def grownLater : AccountRegistry :=
  firstOnly.afterAll (parentLater.drop 1 ++ [.close firstId ⟨2025, 9, 30, by decide⟩,
    .restore ⟨firstId, .new ⟨["Expenses", "Rent"], rfl⟩ ⟨2025, 7, 1, by decide⟩⟩])

/-- Not vacuous: the first binding is proven at the size with one account. -/
theorem firstId_stays :
    ((grownLater.proveBindingAt firstId firstOnly.len : Option (AccountBindingProof Preimage)).isSome ↔
      firstId.index < firstOnly.len) ∧
    ∀ p : AccountBindingProof Preimage, grownLater.proveBindingAt firstId firstOnly.len = some p →
      p.id = firstId ∧ (new.issued (parentLater.take 1))[firstId.index]? = some p.path ∧
        p.verify firstOnly.commitment = true :=
  bindings_stay (run_afterAll _ _) (run_afterAll _ _) firstId

end AccountRegistry

end DoubleEntry.L3
