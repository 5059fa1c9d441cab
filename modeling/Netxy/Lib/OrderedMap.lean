import Mathlib.Data.List.Basic
import Mathlib.Order.Defs.Unbundled

/-!
# Ordered maps as entry lists

A `std::map` as the list of its entries in the order of their keys. `κ` are the keys, `ν` the
values, and `lt` is the comparison of the map, so two keys are the same to the map when
neither is less than the other.
-/

namespace OrderedMap

variable {κ ν : Type*} (lt : κ → κ → Prop)

/-- The keys of the entries ascend. -/
def Sorted (l : List (κ × ν)) : Prop := l.Pairwise fun a b => lt a.1 b.1

variable [DecidableRel lt]

/-- `map[k] = v`. -/
def insert (k : κ) (v : ν) : List (κ × ν) → List (κ × ν)
  | [] => [(k, v)]
  | e :: es =>
    if lt k e.1 then (k, v) :: e :: es
    else if lt e.1 k then e :: insert k v es
    else (e.1, v) :: es

/-- `map.find(k)`. -/
def find (k : κ) : List (κ × ν) → Option ν
  | [] => none
  | e :: es => if lt e.1 k ∨ lt k e.1 then find k es else some e.2

/-- `map.erase(k)`. -/
def erase (k : κ) : List (κ × ν) → List (κ × ν)
  | [] => []
  | e :: es => if lt e.1 k ∨ lt k e.1 then e :: erase k es else es

/-! ## Filling a map in order -/

theorem find_of_forall_lt {k : κ} {l : List (κ × ν)} (h : ∀ e ∈ l, lt e.1 k) :
    find lt k l = none := by
  induction l with
  | nil => rfl
  | cons e es ih =>
    rw [find, if_pos (Or.inl (h e List.mem_cons_self))]
    exact ih fun x hx => h x (List.mem_cons_of_mem e hx)

section Asymm
variable {lt} [Std.Asymm lt]

/-- A key above all keys of the map goes to its end. -/
theorem insert_of_forall_lt {k : κ} {v : ν} {l : List (κ × ν)} (h : ∀ e ∈ l, lt e.1 k) :
    insert lt k v l = l ++ [(k, v)] := by
  induction l with
  | nil => rfl
  | cons e es ih =>
    have he : lt e.1 k := h e List.mem_cons_self
    rw [insert, if_neg (asymm he), if_pos he, ih fun x hx => h x (List.mem_cons_of_mem e hx)]
    rfl

/-- Inserting the entries of a map one after the other builds it up again. -/
theorem foldl_insert_of_sorted {l r : List (κ × ν)} (h : Sorted lt (l ++ r)) :
    r.foldl (fun m e => insert lt e.1 e.2 m) l = l ++ r := by
  induction r generalizing l with
  | nil => rw [List.foldl_nil, List.append_nil]
  | cons e es ih =>
    have hlt : ∀ x ∈ l, lt x.1 e.1 := fun x hx =>
      (List.pairwise_append.mp h).2.2 x hx e List.mem_cons_self
    have hsplit : l ++ e :: es = (l ++ [(e.1, e.2)]) ++ es := by
      rw [List.append_assoc, List.singleton_append]
    rw [hsplit] at h
    rw [List.foldl_cons, insert_of_forall_lt hlt, ih h, hsplit]

end Asymm

/-! ## The entries of a sorted map -/

/-- A key of the map after an insertion is the inserted one, or was there. -/
theorem key_mem_insert {k : κ} {v : ν} {l : List (κ × ν)} {x : κ × ν} (hx : x ∈ insert lt k v l) :
    x.1 = k ∨ ∃ y ∈ l, y.1 = x.1 := by
  induction l with
  | nil =>
    rw [insert, List.mem_singleton] at hx
    exact Or.inl (hx ▸ rfl)
  | cons e es ih =>
    rw [insert] at hx
    split at hx
    · rcases List.mem_cons.mp hx with rfl | hx
      · exact Or.inl rfl
      · exact Or.inr ⟨x, hx, rfl⟩
    · split at hx
      · rcases List.mem_cons.mp hx with rfl | hx
        · exact Or.inr ⟨x, List.mem_cons_self, rfl⟩
        · rcases ih hx with h | ⟨y, hy, h⟩
          · exact Or.inl h
          · exact Or.inr ⟨y, List.mem_cons_of_mem e hy, h⟩
      · rcases List.mem_cons.mp hx with rfl | hx
        · exact Or.inr ⟨e, List.mem_cons_self, rfl⟩
        · exact Or.inr ⟨x, List.mem_cons_of_mem e hx, rfl⟩

theorem erase_sublist {k : κ} {l : List (κ × ν)} : (erase lt k l).Sublist l := by
  induction l with
  | nil => exact List.Sublist.refl _
  | cons e es ih =>
    rw [erase]
    split
    · exact ih.cons_cons e
    · exact List.sublist_cons_self e es

section Trans
variable {lt} [IsTrans κ lt]

theorem sorted_insert {k : κ} {v : ν} {l : List (κ × ν)} (h : Sorted lt l) :
    Sorted lt (insert lt k v l) := by
  induction l with
  | nil => exact List.pairwise_singleton _ _
  | cons e es ih =>
    have htail : Sorted lt es := (List.pairwise_cons.mp h).2
    have hhead : ∀ y ∈ es, lt e.1 y.1 := (List.pairwise_cons.mp h).1
    rw [insert]
    by_cases hke : lt k e.1
    · rw [if_pos hke]
      refine List.pairwise_cons.mpr ⟨fun y hy => ?_, h⟩
      rcases List.mem_cons.mp hy with rfl | hy
      · exact hke
      · exact trans_of lt hke (hhead y hy)
    · rw [if_neg hke]
      by_cases hek : lt e.1 k
      · rw [if_pos hek]
        -- a key behind `e` is the new one or an old one, and both are above `e`
        refine List.pairwise_cons.mpr ⟨fun y hy => ?_, ih htail⟩
        rcases key_mem_insert lt hy with hkey | ⟨z, hz, hkey⟩
        · rw [hkey]
          exact hek
        · rw [← hkey]
          exact hhead z hz
      · rw [if_neg hek]
        exact List.pairwise_cons.mpr ⟨hhead, htail⟩

end Trans

section Total
variable {lt} {k : κ} {v : ν} {l : List (κ × ν)} {e : κ × ν}

theorem sorted_erase (h : Sorted lt l) : Sorted lt (erase lt k l) :=
  h.sublist (erase_sublist lt)

variable [IsStrictTotalOrder κ lt]

omit [DecidableRel lt] in
theorem same_iff {a b : κ} : ¬ (lt a b ∨ lt b a) ↔ a = b := by
  constructor
  · intro h
    rcases trichotomous_of lt a b with hab | hab | hab
    · exact absurd (Or.inl hab) h
    · exact hab
    · exact absurd (Or.inr hab) h
  · rintro rfl (h | h) <;> exact irrefl_of lt a h

omit [DecidableRel lt] in
theorem Sorted.ne_of_mem (h : Sorted lt (e :: l)) {x : κ × ν} (hx : x ∈ l) : x.1 ≠ e.1 := by
  intro heq
  have hlt : lt e.1 x.1 := (List.pairwise_cons.mp h).1 x hx
  rw [heq] at hlt
  exact irrefl_of lt e.1 hlt

omit [DecidableRel lt] in
theorem Sorted.nodup_keys (h : Sorted lt l) : (l.map Prod.fst).Nodup := by
  refine List.pairwise_map.mpr (h.imp fun {a b} hlt heq => ?_)
  rw [heq] at hlt
  exact irrefl_of lt b.1 hlt

theorem mem_erase (h : Sorted lt l) {x : κ × ν} : x ∈ erase lt k l ↔ x ∈ l ∧ x.1 ≠ k := by
  induction l with
  | nil => simp [erase]
  | cons e es ih =>
    have htail : Sorted lt es := (List.pairwise_cons.mp h).2
    rw [erase]
    by_cases hk : lt e.1 k ∨ lt k e.1
    · have hne : e.1 ≠ k := fun heq => same_iff.mpr heq hk
      rw [if_pos hk, List.mem_cons, List.mem_cons, ih htail]
      constructor
      · rintro (rfl | hx)
        · exact ⟨Or.inl rfl, hne⟩
        · exact ⟨Or.inr hx.1, hx.2⟩
      · rintro ⟨rfl | hx, hxk⟩
        · exact Or.inl rfl
        · exact Or.inr ⟨hx, hxk⟩
    · have heq : e.1 = k := same_iff.mp hk
      rw [if_neg hk, List.mem_cons, ← heq]
      constructor
      · exact fun hx => ⟨Or.inr hx, h.ne_of_mem hx⟩
      · rintro ⟨rfl | hx, hxk⟩
        · exact absurd rfl hxk
        · exact hx

theorem mem_insert (h : Sorted lt l) {x : κ × ν} :
    x ∈ insert lt k v l ↔ x = (k, v) ∨ (x ∈ l ∧ x.1 ≠ k) := by
  induction l with
  | nil => simp [insert]
  | cons e es ih =>
    have htail : Sorted lt es := (List.pairwise_cons.mp h).2
    rw [insert]
    by_cases hke : lt k e.1
    · -- `k` is below the first key, so it is not in the map
      have hne : ∀ y ∈ e :: es, y.1 ≠ k := by
        intro y hy heq
        rcases List.mem_cons.mp hy with rfl | hy
        · exact same_iff.mpr heq (Or.inr hke)
        · have hlt : lt e.1 y.1 := (List.pairwise_cons.mp h).1 y hy
          rw [heq] at hlt
          exact asymm_of lt hke hlt
      rw [if_pos hke, List.mem_cons]
      exact or_congr_right ⟨fun hx => ⟨hx, hne x hx⟩, And.left⟩
    · rw [if_neg hke]
      by_cases hek : lt e.1 k
      · have hne : e.1 ≠ k := fun heq => same_iff.mpr heq (Or.inl hek)
        rw [if_pos hek, List.mem_cons, List.mem_cons, ih htail]
        constructor
        · rintro (rfl | rfl | hx)
          · exact Or.inr ⟨Or.inl rfl, hne⟩
          · exact Or.inl rfl
          · exact Or.inr ⟨Or.inr hx.1, hx.2⟩
        · rintro (rfl | ⟨rfl | hx, hxk⟩)
          · exact Or.inr (Or.inl rfl)
          · exact Or.inl rfl
          · exact Or.inr (Or.inr ⟨hx, hxk⟩)
      · have heq : e.1 = k := same_iff.mp (not_or.mpr ⟨hek, hke⟩)
        rw [if_neg hek, List.mem_cons, List.mem_cons, heq]
        refine or_congr_right ⟨fun hx => ⟨Or.inr hx, heq ▸ h.ne_of_mem hx⟩, ?_⟩
        rintro ⟨rfl | hx, hxk⟩
        · exact absurd heq hxk
        · exact hx

theorem find_eq_some_iff (h : Sorted lt l) : find lt k l = some v ↔ (k, v) ∈ l := by
  induction l with
  | nil => simp [find]
  | cons e es ih =>
    have htail : Sorted lt es := (List.pairwise_cons.mp h).2
    rw [find, List.mem_cons]
    by_cases hk : lt e.1 k ∨ lt k e.1
    · have hne : (k, v) ≠ e := fun heq => same_iff.mpr (heq ▸ rfl) hk
      rw [if_pos hk, ih htail]
      exact ⟨Or.inr, fun hv => hv.resolve_left hne⟩
    · have heq : e.1 = k := same_iff.mp hk
      rw [if_neg hk, Option.some.injEq]
      constructor
      · rintro rfl
        exact Or.inl (Prod.ext heq.symm rfl)
      · rintro (hv | hv)
        · rw [← hv]
        · exact absurd heq.symm (h.ne_of_mem hv)

end Total

/-! ## Maps that are sorted by construction -/

theorem map_eq_self_iff {α : Type*} {f : α → α} {l : List α} :
    l.map f = l ↔ ∀ x ∈ l, f x = x :=
  calc l.map f = l ↔ l.map f = l.map id := by rw [List.map_id]
    _ ↔ ∀ x ∈ l, f x = id x := List.map_inj_left

/-- A map: its entries, in order. -/
@[ext] structure Map (lt : κ → κ → Prop) (ν : Type*) where
  entries : List (κ × ν)
  sorted : Sorted lt entries

namespace Map
variable {lt} {ω : Type*}

def empty : Map lt ν := ⟨[], List.Pairwise.nil⟩

/-- Every value is replaced by its image. -/
def mapVal (f : ν → ω) (m : Map lt ν) : Map lt ω :=
  ⟨m.entries.map fun e => (e.1, f e.2), by
    rw [Sorted, List.pairwise_map]
    exact m.sorted⟩

omit [DecidableRel lt] in
theorem mapVal_eq_self_iff {f : ν → ν} {m : Map lt ν} :
    m.mapVal f = m ↔ ∀ e ∈ m.entries, f e.2 = e.2 := by
  rw [Map.ext_iff]
  refine map_eq_self_iff.trans (forall₂_congr fun e _ => ?_)
  rw [Prod.ext_iff, and_iff_right rfl]

variable [IsStrictOrder κ lt]

/-- `map[k] = v`. -/
def set (m : Map lt ν) (k : κ) (v : ν) : Map lt ν :=
  ⟨insert lt k v m.entries, sorted_insert m.sorted⟩

/-- `map.insert({k, v})`: a key that is there keeps its value. -/
def emplace (m : Map lt ν) (k : κ) (v : ν) : Map lt ν :=
  if (find lt k m.entries).isSome then m else m.set k v

theorem emplace_of_forall_lt {m : Map lt ν} {k : κ} {v : ν} (h : ∀ e ∈ m.entries, lt e.1 k) :
    (m.emplace k v).entries = m.entries ++ [(k, v)] := by
  have hfind : find lt k m.entries = none := find_of_forall_lt lt h
  rw [emplace, hfind, Option.isSome_none, if_neg Bool.false_ne_true]
  exact insert_of_forall_lt h

/-- Setting the entries of a map one after the other in an empty one builds it up again. -/
theorem foldl_set (f : ν → ω) (m : Map lt ν) :
    m.entries.foldl (fun r e => r.set e.1 (f e.2)) empty = m.mapVal f := by
  have hfold : ∀ (l : List (κ × ν)) (r : Map lt ω),
      (l.foldl (fun r e => r.set e.1 (f e.2)) r).entries =
        (l.map fun e => (e.1, f e.2)).foldl (fun r e => insert lt e.1 e.2 r) r.entries := by
    intro l
    induction l with
    | nil => exact fun _ => rfl
    | cons e es ih => exact fun r => ih (r.set e.1 (f e.2))
  apply Map.ext
  rw [hfold]
  exact foldl_insert_of_sorted (l := []) (m.mapVal f).sorted

/-- Inserting the entries of a map one after the other in an empty one builds it up again. -/
theorem foldl_emplace (m : Map lt ν) :
    m.entries.foldl (fun r e => r.emplace e.1 e.2) empty = m := by
  have hfold : ∀ (l : List (κ × ν)) (r : Map lt ν), Sorted lt (r.entries ++ l) →
      (l.foldl (fun r e => r.emplace e.1 e.2) r).entries = r.entries ++ l := by
    intro l
    induction l with
    | nil => exact fun r _ => (List.append_nil r.entries).symm
    | cons e es ih =>
      intro r hr
      have hlt : ∀ x ∈ r.entries, lt x.1 e.1 := fun x hx =>
        (List.pairwise_append.mp hr).2.2 x hx e List.mem_cons_self
      have hadd : (r.emplace e.1 e.2).entries ++ es = r.entries ++ e :: es := by
        rw [emplace_of_forall_lt hlt, List.append_assoc, List.singleton_append]
      rw [List.foldl_cons, ih _ (hadd.symm ▸ hr), hadd]
  exact Map.ext (hfold m.entries empty m.sorted)

end Map

end OrderedMap
