/-
What a search finds in a treap, and in what is made of treaps.

`find?` follows the order to a key.  On a treap it finds the one element that has the
key, so it says everything about the tree: `IsTreap.eq_of_find?`.  Every restructuring
operation is described by what is found afterwards, as an equation between options.

Two more operations unite and subtract, in a way that leaves one of the two trees as it
is: where a node of that tree would have to change, an altered copy takes its place, by
the hook `f`.  The equations for them hold up to what `f` alters, that is, seen through
any `G` with `G (f x) = G x` for the elements concerned.
-/
import Contreap.Lib.Cartesian

namespace Cartesian

open BinaryTree

universe u v w

variable {α : Type u} {K : Type v} {P : Type w} [LinearOrder K] [LinearOrder P]

/-! ### Finding a key -/

section Find

variable (key : α → K) (k : K)

/-- The search for a key, as in a search tree. -/
def find? : BinaryTree α → Option α
  | nil => none
  | node x l r => if k < key x then find? l else if key x < k then find? r else some x

variable {key k}

@[simp] theorem find?_nil : find? key k nil = none := rfl

theorem find?_of_lt {x : α} {l r : BinaryTree α} (hlt : k < key x) :
    find? key k (node x l r) = find? key k l := if_pos hlt

theorem find?_of_gt {x : α} {l r : BinaryTree α} (hlt : key x < k) :
    find? key k (node x l r) = find? key k r := by
  rw [find?, if_neg hlt.le.not_gt, if_pos hlt]

@[simp] theorem find?_root {x : α} {l r : BinaryTree α} :
    find? key (key x) (node x l r) = some x := by
  rw [find?, if_neg (lt_irrefl _), if_neg (lt_irrefl _)]

theorem key_of_find? {t : BinaryTree α} {x : α} (hx : find? key k t = some x) : key x = k := by
  induction t with
  | nil => cases hx
  | node y l r ihl ihr =>
      rcases lt_trichotomy k (key y) with hlt | rfl | hgt
      · exact ihl (find?_of_lt hlt ▸ hx)
      · rw [find?_root] at hx
        rw [Option.some.inj hx]
      · exact ihr (find?_of_gt hgt ▸ hx)

theorem mem_of_find? {t : BinaryTree α} {x : α} (hx : find? key k t = some x) :
    x ∈ t.inorder := by
  induction t with
  | nil => cases hx
  | node y l r ihl ihr =>
      rcases lt_trichotomy k (key y) with hlt | rfl | hgt
      · simp [ihl (find?_of_lt hlt ▸ hx)]
      · rw [find?_root] at hx
        simp [Option.some.inj hx]
      · simp [ihr (find?_of_gt hgt ▸ hx)]

/-- A key that is not in the tree is not found. -/
theorem find?_eq_none {t : BinaryTree α} (hk : k ∉ keys key t) : find? key k t = none := by
  cases hx : find? key k t with
  | none => rfl
  | some x => exact absurd (List.mem_map.mpr ⟨x, mem_of_find? hx, key_of_find? hx⟩) hk

variable {pry : α → P} {h : K → P}

theorem IsTreap.find?_of_mem {t : BinaryTree α} (ht : IsTreap key pry h t) {x : α}
    (hx : x ∈ t.inorder) : find? key (key x) t = some x := by
  induction t with
  | nil => cases hx
  | node y l r ihl ihr =>
      obtain ⟨-, hl, hr, htl, htr⟩ := isTreap_node.mp ht
      rcases List.mem_append.mp hx with hx | hx
      · rw [find?_of_lt (hl _ (List.mem_map_of_mem hx)).1, ihl htl hx]
      · rcases List.mem_cons.mp hx with rfl | hx
        · rw [find?_root]
        · rw [find?_of_gt (hr _ (List.mem_map_of_mem hx)).1, ihr htr hx]

theorem IsTreap.mem_keys_iff {t : BinaryTree α} (ht : IsTreap key pry h t) :
    k ∈ keys key t ↔ (find? key k t).isSome := by
  constructor
  · intro hk
    obtain ⟨x, hx, rfl⟩ := List.mem_map.mp hk
    rw [ht.find?_of_mem hx]
    rfl
  · intro hk
    by_contra hnot
    rw [find?_eq_none hnot] at hk
    cases hk

theorem find?_map {β : Type*} {key' : β → K} {g : α → β} (hkey : ∀ x, key' (g x) = key x)
    (t : BinaryTree α) : find? key' k (t.map g) = (find? key k t).map g := by
  induction t with
  | nil => rfl
  | node x l r ihl ihr =>
      rcases lt_trichotomy k (key x) with hlt | rfl | hgt
      · rw [map_node, find?_of_lt (by rwa [hkey]), find?_of_lt hlt, ihl]
      · rw [map_node, find?_root, ← hkey, find?_root]
        rfl
      · rw [map_node, find?_of_gt (by rwa [hkey]), find?_of_gt hgt, ihr]

/-- Whether a tree is a treap is a matter of keys and priorities alone. -/
theorem isTreap_map_iff {β : Type*} {key' : β → K} {pry' : β → P} {g : α → β}
    (hkey : ∀ x, key' (g x) = key x) (hpry : ∀ x, pry' (g x) = pry x) {t : BinaryTree α} :
    IsTreap key' pry' h (t.map g) ↔ IsTreap key pry h t := by
  refine ⟨fun ht => ?_, fun ht => ht.map hkey hpry⟩
  induction t with
  | nil => trivial
  | node x l r ihl ihr =>
      obtain ⟨hx, hl, hr, htl, htr⟩ := isTreap_node.mp ht
      rw [keys_map hkey, hkey] at hl hr
      rw [hkey, hpry] at hx
      exact isTreap_node.mpr ⟨hx, hl, hr, ihl htl, ihr htr⟩

/-- **A treap is determined by what is found in it.** -/
theorem IsTreap.eq_of_find? {t s : BinaryTree α} (ht : IsTreap key pry h t)
    (hs : IsTreap key pry h s) (hfind : ∀ k, find? key k t = find? key k s) : t = s :=
  ht.eq_of_mem_iff hs fun x => by
    have hx := hfind (key x)
    constructor
    · intro hmem
      rw [ht.find?_of_mem hmem] at hx
      exact mem_of_find? hx.symm
    · intro hmem
      rw [hs.find?_of_mem hmem] at hx
      exact mem_of_find? hx

/-! ### What is found after an operation

The equations are up to the hook, and need the order: a split at a key finds what was on
either side of it, and two trees one after the other find what either of them holds.
-/

variable {f : α → α} {j : K} {γ : Type*} {G : α → γ} {Q : α → Prop}

variable (key j) in
theorem forall_mem_splitWith (hf : ∀ x, Q x → Q (f x)) {t : BinaryTree α}
    (ht : ∀ x ∈ t.inorder, Q x) :
    (∀ x ∈ (splitWith f key j t).1.inorder, Q x) ∧
      ∀ x ∈ (splitWith f key j t).2.inorder, Q x := by
  induction t with
  | nil => exact ⟨ht, ht⟩
  | node x l r ihl ihr =>
      obtain ⟨hx, hl, hr⟩ := forall_mem_inorder_node.mp ht
      by_cases hlt : j < key x
      · rw [splitWith_of_lt hlt]
        exact ⟨(ihl hl).1, forall_mem_inorder_node.mpr ⟨hf x hx, (ihl hl).2, hr⟩⟩
      · rw [splitWith_of_not_lt hlt]
        exact ⟨forall_mem_inorder_node.mpr ⟨hf x hx, hl, (ihr hr).1⟩, (ihr hr).2⟩

/-- Up to the hook, each half holds what was there on its side. -/
theorem find?_splitWith (hkey : ∀ x, key (f x) = key x) (hG : ∀ x, Q x → G (f x) = G x)
    {t : BinaryTree α} (ht : IsTreap key pry h t) (hQ : ∀ x ∈ t.inorder, Q x) :
    (find? key k (splitWith f key j t).1).map G
        = (if k ≤ j then (find? key k t).map G else none) ∧
      (find? key k (splitWith f key j t).2).map G
        = (if k ≤ j then none else (find? key k t).map G) := by
  induction t with
  | nil => simp [Cartesian.splitWith]
  | node x l r ihl ihr =>
      obtain ⟨-, hl, hr, htl, htr⟩ := isTreap_node.mp ht
      obtain ⟨hQx, hQl, hQr⟩ := forall_mem_inorder_node.mp hQ
      obtain ⟨ihl₁, ihl₂⟩ := ihl htl hQl
      obtain ⟨ihr₁, ihr₂⟩ := ihr htr hQr
      -- A side of the root holds nothing beyond the root.
      have hleft : key x ≤ k → find? key k l = none := fun hle =>
        find?_eq_none fun hk => (hl k hk).1.not_ge hle
      have hright : k ≤ key x → find? key k r = none := fun hle =>
        find?_eq_none fun hk => (hr k hk).1.not_ge hle
      by_cases hlt : j < key x
      · rw [splitWith_of_lt hlt]
        refine ⟨?_, ?_⟩
        · rw [ihl₁]
          by_cases hle : k ≤ j
          · rw [if_pos hle, if_pos hle, find?_of_lt (hle.trans_lt hlt)]
          · rw [if_neg hle, if_neg hle]
        · rcases lt_trichotomy k (key x) with hk | rfl | hk
          · rw [find?_of_lt (by rwa [hkey]), find?_of_lt hk, ihl₂]
          · rw [show find? key (key x) (node (f x) (splitWith f key j l).2 r) = some (f x) by
              rw [← hkey x, find?_root], find?_root, if_neg hlt.not_ge]
            exact congrArg some (hG x hQx)
          · rw [find?_of_gt (by rwa [hkey]), find?_of_gt hk, if_neg (hlt.trans hk).not_ge]
      · have hge := not_lt.mp hlt
        rw [splitWith_of_not_lt hlt]
        refine ⟨?_, ?_⟩
        · rcases lt_trichotomy k (key x) with hk | rfl | hk
          · rw [find?_of_lt (by rwa [hkey]), find?_of_lt hk, if_pos (hk.le.trans hge)]
          · rw [show find? key (key x) (node (f x) l (splitWith f key j r).1) = some (f x) by
              rw [← hkey x, find?_root], find?_root, if_pos hge]
            exact congrArg some (hG x hQx)
          · rw [find?_of_gt (by rwa [hkey]), find?_of_gt hk, ihr₁]
        · rw [ihr₂]
          by_cases hle : k ≤ j
          · rw [if_pos hle, if_pos hle]
          · rw [if_neg hle, if_neg hle, find?_of_gt (hge.trans_lt (not_le.mp hle))]

/-- Away from the key it was split at, a tree's half holds what the tree did. -/
theorem find?_splitWith_side (hkey : ∀ x, key (f x) = key x)
    (hG : ∀ x, Q x → G (f x) = G x) {t : BinaryTree α} (ht : IsTreap key pry h t)
    (hQ : ∀ x ∈ t.inorder, Q x) :
    (k < j → (find? key k (splitWith f key j t).1).map G = (find? key k t).map G) ∧
      (j < k → (find? key k (splitWith f key j t).2).map G = (find? key k t).map G) := by
  obtain ⟨hfst, hsnd⟩ := find?_splitWith (k := k) (j := j) hkey hG ht hQ
  exact ⟨fun hlt => by rw [hfst, if_pos hlt.le], fun hlt => by rw [hsnd, if_neg hlt.not_ge]⟩

theorem find?_splitWith_id {t : BinaryTree α} (ht : IsTreap key pry h t) :
    (k < j → find? key k (splitWith id key j t).1 = find? key k t) ∧
      (j < k → find? key k (splitWith id key j t).2 = find? key k t) := by
  simpa using find?_splitWith_side (k := k) (j := j) (f := id) (G := id) (Q := fun _ => True)
    (fun _ => rfl) (fun _ _ => rfl) ht fun _ _ => trivial

/-- Two trees one after the other hold what either of them holds. -/
theorem find?_concatWith (hkey : ∀ x, key (f x) = key x) (hG : ∀ x, Q x → G (f x) = G x)
    {s t : BinaryTree α} :
    IsTreap key pry h s → IsTreap key pry h t → (∀ a ∈ keys key s, ∀ b ∈ keys key t, a < b) →
      (∀ x ∈ s.inorder, Q x) → (∀ x ∈ t.inorder, Q x) →
      (find? key k (concatWith f pry s t)).map G
        = ((find? key k s).or (find? key k t)).map G := by
  induction s, t using Cartesian.concatWith.induct pry with
  | case1 t => intro _ _ _ _ _; simp
  | case2 x l r => intro _ _ _ _ _; simp
  | case3 x l r y l' r' hlt ih =>
      intro hs ht hsep hQs hQt
      obtain ⟨hQx, -, hQr⟩ := forall_mem_inorder_node.mp hQs
      obtain ⟨-, hl, hr, hsl, hsr⟩ := isTreap_node.mp hs
      have hbeyond : k ≤ key x → find? key k (node y l' r') = none := fun hle =>
        find?_eq_none fun hk => (hsep (key x) (by simp) k hk).not_ge hle
      rw [concatWith_node, if_pos hlt]
      rcases lt_trichotomy k (key x) with hk | rfl | hk
      · rw [find?_of_lt (by rwa [hkey]), find?_of_lt hk, hbeyond hk.le, Option.or_none]
      · rw [show find? key (key x) (node (f x) l (concatWith f pry r (node y l' r')))
          = some (f x) by rw [← hkey x, find?_root], find?_root]
        exact congrArg some (hG x hQx)
      · rw [find?_of_gt (by rwa [hkey]), find?_of_gt hk,
          ih hsr ht (fun a ha b hb => hsep a (by simp [ha]) b hb) hQr hQt]
  | case4 x l r y l' r' hlt ih =>
      intro hs ht hsep hQs hQt
      obtain ⟨hQy, hQl, -⟩ := forall_mem_inorder_node.mp hQt
      obtain ⟨-, hl, hr, htl, htr⟩ := isTreap_node.mp ht
      have hbeyond : key y ≤ k → find? key k (node x l r) = none := fun hle =>
        find?_eq_none fun hk => (hsep k hk (key y) (by simp)).not_ge hle
      rw [concatWith_node, if_neg hlt]
      rcases lt_trichotomy k (key y) with hk | rfl | hk
      · rw [find?_of_lt (by rwa [hkey]), ih hs htl (fun a ha b hb => hsep a ha b (by simp [hb])) hQs hQl]
        cases find? key k (node x l r) with
        | none => rw [Option.none_or, Option.none_or, find?_of_lt hk]
        | some z => rfl
      · rw [show find? key (key y) (node (f y) (concatWith f pry (node x l r) l') r')
          = some (f y) by rw [← hkey y, find?_root], hbeyond le_rfl, find?_root]
        exact congrArg some (hG y hQy)
      · rw [find?_of_gt (by rwa [hkey]), hbeyond hk.le, Option.none_or, find?_of_gt hk]

end Find

/-! ### Uniting -/

section Union

variable {c : α → α → α} {key : α → K} {pry : α → P} {h : K → P} {k : K}

/-- A root of higher priority is not found in the other tree. -/
theorem IsTreap.find?_root_of_lt {x y : α} {l r : BinaryTree α}
    (ht : IsTreap key pry h (node y l r)) (hx : pry x = h (key x)) (hlt : pry y < pry x) :
    find? key (key x) (node y l r) = none :=
  find?_eq_none fun hk => by
    have hle := ht.le_root hk
    rw [← hx, ← (isTreap_node.mp ht).1] at hle
    exact hle.not_gt hlt

omit [LinearOrder K] in
theorem pry_lt_of_ne (hinj : Function.Injective h) {x y : α} (hx : pry x = h (key x))
    (hy : pry y = h (key y)) (hne : key x ≠ key y) (hle : ¬ pry y < pry x) : pry x < pry y :=
  lt_of_le_of_ne (not_lt.mp hle) fun heq => hne (hinj (hx ▸ hy ▸ heq))

/-- What is found in a union is what is found in the two trees, put together. -/
theorem find?_unionWith (hinj : Function.Injective h)
    (hkey : ∀ x y, key x = key y → key (c x y) = key x) {s t : BinaryTree α} :
    IsTreap key pry h s → IsTreap key pry h t →
      find? key k (unionWith c key pry s t)
        = Option.merge c (find? key k s) (find? key k t) := by
  induction s, t using Cartesian.unionWith.induct key pry with
  | case1 t => intro _ _; simp
  | case2 x l r => intro _ _; simp
  | case3 x l r y l' r' heq ihl ihr =>
      intro hs ht
      obtain ⟨-, -, -, hsl, hsr⟩ := isTreap_node.mp hs
      obtain ⟨-, -, -, htl, htr⟩ := isTreap_node.mp ht
      rw [unionWith_node, if_pos heq]
      rcases lt_trichotomy k (key x) with hk | rfl | hk
      · rw [find?_of_lt (by rwa [hkey x y heq]), find?_of_lt hk, find?_of_lt (heq ▸ hk),
          ihl hsl htl]
      · rw [show find? key (key x) (node (c x y) (unionWith c key pry l l')
          (unionWith c key pry r r')) = some (c x y) by rw [← hkey x y heq, find?_root],
          find?_root, show find? key (key x) (node y l' r') = some y by rw [heq, find?_root]]
        rfl
      · rw [find?_of_gt (by rwa [hkey x y heq]), find?_of_gt hk, find?_of_gt (heq ▸ hk),
          ihr hsr htr]
  | case4 x l r y l' r' hne hlt ihl ihr =>
      intro hs ht
      obtain ⟨hx, -, -, hsl, hsr⟩ := isTreap_node.mp hs
      obtain ⟨hta, htb, -, -⟩ := ht.splitWith (f := id) (k := key x) (fun _ => rfl) (fun _ => rfl)
      rw [unionWith_node, if_neg hne, if_pos hlt]
      rcases lt_trichotomy k (key x) with hk | rfl | hk
      · rw [find?_of_lt hk, find?_of_lt hk, ihl hsl hta, (find?_splitWith_id ht).1 hk]
      · rw [find?_root, find?_root, ht.find?_root_of_lt hx hlt]
        rfl
      · rw [find?_of_gt hk, find?_of_gt hk, ihr hsr htb, (find?_splitWith_id ht).2 hk]
  | case5 x l r y l' r' hne hlt ihl ihr =>
      intro hs ht
      obtain ⟨hy, -, -, htl, htr⟩ := isTreap_node.mp ht
      have hxy := pry_lt_of_ne hinj (isTreap_node.mp hs).1 hy hne hlt
      obtain ⟨hsa, hsb, -, -⟩ := hs.splitWith (f := id) (k := key y) (fun _ => rfl) (fun _ => rfl)
      rw [unionWith_node, if_neg hne, if_neg hlt]
      rcases lt_trichotomy k (key y) with hk | rfl | hk
      · rw [find?_of_lt hk, find?_of_lt (l := l') hk, ihl hsa htl, (find?_splitWith_id hs).1 hk]
      · rw [find?_root, find?_root, hs.find?_root_of_lt hy hxy]
        rfl
      · rw [find?_of_gt hk, find?_of_gt (r := r') hk, ihr hsb htr, (find?_splitWith_id hs).2 hk]

end Union

/-! ### Uniting with a tree that stays as it is

The recursion is on both trees, since either root may come out on top, and splits one of
them at the other's key.
-/

section Overlay

variable (f : α → α) (c : α → α → α) (key : α → K) (pry : α → P)

/-- Unite two trees of which the first is to stay as it is: a root of it that stays on
top, and a node of it on the path of a split, is replaced by an altered copy. -/
def overlayWith : BinaryTree α → BinaryTree α → BinaryTree α
  | nil, t => t
  | node x l r, nil => node x l r
  | node x l r, node y l' r' =>
      if pry y < pry x then
        node (f x) (overlayWith l (splitWith id key (key x) (node y l' r')).1)
          (overlayWith r (splitWith id key (key x) (node y l' r')).2)
      else if key x = key y then node (c x y) (overlayWith l l') (overlayWith r r')
      else
        node y (overlayWith (splitWith f key (key y) (node x l r)).1 l')
          (overlayWith (splitWith f key (key y) (node x l r)).2 r')
termination_by s t => s.numNodes + t.numNodes
decreasing_by
  · have ht := numNodes_splitWith id key (key x) (node y l' r')
    simp only [numNodes] at *
    omega
  · have ht := numNodes_splitWith id key (key x) (node y l' r')
    simp only [numNodes] at *
    omega
  · simp only [numNodes]; omega
  · simp only [numNodes]; omega
  · have hs := numNodes_splitWith f key (key y) (node x l r)
    simp only [numNodes] at *
    omega
  · have hs := numNodes_splitWith f key (key y) (node x l r)
    simp only [numNodes] at *
    omega

variable {f c key pry}

@[simp] theorem overlayWith_nil_left (t : BinaryTree α) : overlayWith f c key pry nil t = t := by
  rw [overlayWith]

@[simp] theorem overlayWith_nil_right (s : BinaryTree α) :
    overlayWith f c key pry s nil = s := by
  cases s <;> rw [overlayWith]

theorem overlayWith_node (x y : α) (l r l' r' : BinaryTree α) :
    overlayWith f c key pry (node x l r) (node y l' r')
      = if pry y < pry x then
          node (f x) (overlayWith f c key pry l (splitWith id key (key x) (node y l' r')).1)
            (overlayWith f c key pry r (splitWith id key (key x) (node y l' r')).2)
        else if key x = key y then
          node (c x y) (overlayWith f c key pry l l') (overlayWith f c key pry r r')
        else
          node y (overlayWith f c key pry (splitWith f key (key y) (node x l r)).1 l')
            (overlayWith f c key pry (splitWith f key (key y) (node x l r)).2 r') := by
  rw [overlayWith]

/-- The keys are those of the two trees. -/
theorem mem_keys_overlayWith (hkey : ∀ x, key (f x) = key x)
    (hc : ∀ x y, key x = key y → key (c x y) = key x) (s t : BinaryTree α) (k : K) :
    k ∈ keys key (overlayWith f c key pry s t) ↔ k ∈ keys key s ∨ k ∈ keys key t := by
  induction s, t using overlayWith.induct f key pry with
  | case1 t => simp
  | case2 x l r => simp
  | case3 x l r y l' r' hlt ihl ihr =>
      rw [overlayWith_node, if_pos hlt,
        mem_keys_of_splitWith (f := id) (k := key x) (show ∀ z, key (id z) = key z from fun _ => rfl)
          (t := node y l' r')]
      simp only [keys_node, List.mem_append, List.mem_cons, hkey, ihl, ihr]
      grind
  | case4 x l r y l' r' hlt heq ihl ihr =>
      rw [overlayWith_node, if_neg hlt, if_pos heq]
      simp only [keys_node, List.mem_append, List.mem_cons, hc x y heq, ihl, ihr, ← heq]
      grind
  | case5 x l r y l' r' hlt hne ihl ihr =>
      rw [overlayWith_node, if_neg hlt, if_neg hne,
        mem_keys_of_splitWith (k := key y) hkey (t := node x l r)]
      simp only [keys_node, List.mem_append, List.mem_cons, ihl, ihr]
      grind

variable {h : K → P}

/-- As for a union; the hook keeps keys and priorities, so that it does not matter which
tree's nodes are copied. -/
theorem IsTreap.overlayWith (hinj : Function.Injective h) (hkey : ∀ x, key (f x) = key x)
    (hpry : ∀ x, pry (f x) = pry x) (hc : ∀ x y, key x = key y → key (c x y) = key x)
    (hcpry : ∀ x y, key x = key y → pry x = pry y → pry (c x y) = pry x) {s t : BinaryTree α} :
    IsTreap key pry h s → IsTreap key pry h t →
      IsTreap key pry h (overlayWith f c key pry s t) := by
  induction s, t using Cartesian.overlayWith.induct f key pry with
  | case1 t => intro _ ht; simpa using ht
  | case2 x l r => intro hs _; simpa using hs
  | case3 x l r y l' r' hlt ihl ihr =>
      intro hs ht
      obtain ⟨hx, hl, hr, hsl, hsr⟩ := isTreap_node.mp hs
      have hy := (isTreap_node.mp ht).1
      obtain ⟨hta, htb, -, -⟩ :=
        ht.splitWith (f := id) (k := key x) (fun _ => rfl) (fun _ => rfl)
      obtain ⟨ha', hb'⟩ := ht.splitWith_lt (f := id) (k := key x) (fun _ => rfl) (fun _ => rfl)
        (fun a ha => (ht.le_root ha).trans_lt (by rw [← hx, ← hy]; exact hlt))
      rw [overlayWith_node, if_pos hlt]
      refine isTreap_node.mpr ⟨by rw [hpry, hkey, hx], ?_, ?_, ihl hsl hta, ihr hsr htb⟩
      · intro a ha
        rw [hkey]
        exact ((mem_keys_overlayWith hkey hc _ _ _).mp ha).elim (hl a) (ha' a)
      · intro b hb
        rw [hkey]
        exact ((mem_keys_overlayWith hkey hc _ _ _).mp hb).elim (hr b) (hb' b)
  | case4 x l r y l' r' hlt heq ihl ihr =>
      intro hs ht
      obtain ⟨hx, hl, hr, hsl, hsr⟩ := isTreap_node.mp hs
      obtain ⟨hy, hl', hr', htl, htr⟩ := isTreap_node.mp ht
      have hk := hc x y heq
      rw [overlayWith_node, if_neg hlt, if_pos heq]
      refine isTreap_node.mpr ⟨?_, ?_, ?_, ihl hsl htl, ihr hsr htr⟩
      · rw [hk, hcpry x y heq (by rw [hx, hy, heq]), hx]
      · intro a ha
        rw [hk]
        refine ((mem_keys_overlayWith hkey hc _ _ _).mp ha).elim (hl a) fun ha => ?_
        rw [heq]
        exact hl' a ha
      · intro b hb
        rw [hk]
        refine ((mem_keys_overlayWith hkey hc _ _ _).mp hb).elim (hr b) fun hb => ?_
        rw [heq]
        exact hr' b hb
  | case5 x l r y l' r' hlt hne ihl ihr =>
      intro hs ht
      obtain ⟨hy, hl, hr, htl, htr⟩ := isTreap_node.mp ht
      have hx := (isTreap_node.mp hs).1
      have hxy : h (key x) < h (key y) := hx ▸ hy ▸ pry_lt_of_ne hinj hx hy hne hlt
      obtain ⟨hsa, hsb, -, -⟩ := hs.splitWith (f := f) (k := key y) hkey hpry
      obtain ⟨ha', hb'⟩ := hs.splitWith_lt (f := f) (k := key y) hkey hpry
        (fun a ha => (hs.le_root ha).trans_lt hxy)
      rw [overlayWith_node, if_neg hlt, if_neg hne]
      refine isTreap_node.mpr ⟨hy, ?_, ?_, ihl hsa htl, ihr hsb htr⟩
      · intro a ha
        exact ((mem_keys_overlayWith hkey hc _ _ _).mp ha).elim (ha' a) (hl a)
      · intro b hb
        exact ((mem_keys_overlayWith hkey hc _ _ _).mp hb).elim (hb' b) (hr b)

/-- What holds of all nodes and survives copying and combining still holds. -/
theorem forall_mem_overlayWith {Q : α → Prop} (hf : ∀ x, Q x → Q (f x))
    (hc : ∀ x y, Q x → Q y → Q (c x y)) {s t : BinaryTree α} :
    (∀ x ∈ s.inorder, Q x) → (∀ x ∈ t.inorder, Q x) →
      ∀ x ∈ (Cartesian.overlayWith f c key pry s t).inorder, Q x := by
  induction s, t using Cartesian.overlayWith.induct f key pry with
  | case1 t => intro _ ht; simpa using ht
  | case2 x l r => intro hs _; simpa using hs
  | case3 x l r y l' r' hlt ihl ihr =>
      intro hs ht
      obtain ⟨hx, hl, hr⟩ := forall_mem_inorder_node.mp hs
      obtain ⟨hta, htb⟩ := forall_mem_splitWith (f := id) key (key x) (fun _ h => h) ht
      rw [overlayWith_node, if_pos hlt]
      exact forall_mem_inorder_node.mpr ⟨hf x hx, ihl hl hta, ihr hr htb⟩
  | case4 x l r y l' r' hlt heq ihl ihr =>
      intro hs ht
      obtain ⟨hx, hl, hr⟩ := forall_mem_inorder_node.mp hs
      obtain ⟨hy, hl', hr'⟩ := forall_mem_inorder_node.mp ht
      rw [overlayWith_node, if_neg hlt, if_pos heq]
      exact forall_mem_inorder_node.mpr ⟨hc x y hx hy, ihl hl hl', ihr hr hr'⟩
  | case5 x l r y l' r' hlt hne ihl ihr =>
      intro hs ht
      obtain ⟨hy, hl', hr'⟩ := forall_mem_inorder_node.mp ht
      obtain ⟨hsa, hsb⟩ := forall_mem_splitWith key (key y) hf hs
      rw [overlayWith_node, if_neg hlt, if_neg hne]
      exact forall_mem_inorder_node.mpr ⟨hy, ihl hsa hl', ihr hsb hr'⟩

variable {k : K}

/-- Options that look the same, also after combining, merge to what looks the same. -/
theorem merge_map_congr {γ : Type*} {G : α → γ} {o o' : Option α} (p : Option α)
    (heq : o.map G = o'.map G)
    (hc : ∀ z, o.map (fun x => G (c x z)) = o'.map fun x => G (c x z)) :
    (Option.merge c o p).map G = (Option.merge c o' p).map G := by
  cases p with
  | none => simpa using heq
  | some z =>
      cases o with
      | none =>
          cases o' with
          | none => rfl
          | some x' => cases heq
      | some x =>
          cases o' with
          | none => cases heq
          | some x' => simpa using hc z

/--
**Overlaying a treap merges what is found**, up to what the hook alters.
-/
theorem find?_overlayWith (hinj : Function.Injective h) (hkey : ∀ x, key (f x) = key x)
    (hpry : ∀ x, pry (f x) = pry x) (hc : ∀ x y, key x = key y → key (c x y) = key x)
    (hcf : ∀ x y, c (f x) y = c x y) {γ : Type*} {G : α → γ} {Q : α → Prop}
    (hf : ∀ x, Q x → Q (f x)) (hG : ∀ x, Q x → G (f x) = G x) {s t : BinaryTree α} :
    IsTreap key pry h s → IsTreap key pry h t → (∀ x ∈ s.inorder, Q x) →
      (find? key k (overlayWith f c key pry s t)).map G
        = (Option.merge c (find? key k s) (find? key k t)).map G := by
  induction s, t using Cartesian.overlayWith.induct f key pry with
  | case1 t => intro _ _ _; simp
  | case2 x l r => intro _ _ _; simp
  | case3 x l r y l' r' hlt ihl ihr =>
      intro hs ht hQ
      obtain ⟨hQx, hQl, hQr⟩ := forall_mem_inorder_node.mp hQ
      obtain ⟨hx, -, -, hsl, hsr⟩ := isTreap_node.mp hs
      obtain ⟨hta, htb, -, -⟩ := ht.splitWith (f := id) (k := key x) (fun _ => rfl) (fun _ => rfl)
      rw [overlayWith_node, if_pos hlt]
      rcases lt_trichotomy k (key x) with hk | rfl | hk
      · rw [find?_of_lt (by rwa [hkey]), find?_of_lt hk, ihl hsl hta hQl, (find?_splitWith_id ht).1 hk]
      · rw [find?_root, ht.find?_root_of_lt hx hlt, ← hkey x, find?_root]
        exact congrArg some (hG x hQx)
      · rw [find?_of_gt (by rwa [hkey]), find?_of_gt hk, ihr hsr htb hQr, (find?_splitWith_id ht).2 hk]
  | case4 x l r y l' r' hlt heq ihl ihr =>
      intro hs ht hQ
      obtain ⟨hQx, hQl, hQr⟩ := forall_mem_inorder_node.mp hQ
      obtain ⟨-, -, -, hsl, hsr⟩ := isTreap_node.mp hs
      obtain ⟨-, -, -, htl, htr⟩ := isTreap_node.mp ht
      have hxy := hc x y heq
      rw [overlayWith_node, if_neg hlt, if_pos heq]
      rcases lt_trichotomy k (key x) with hk | rfl | hk
      · rw [find?_of_lt (by rwa [hxy]), find?_of_lt hk, find?_of_lt (heq ▸ hk), ihl hsl htl hQl]
      · rw [find?_root, heq, find?_root, ← heq, ← hxy, find?_root]
        rfl
      · rw [find?_of_gt (by rwa [hxy]), find?_of_gt hk, find?_of_gt (heq ▸ hk), ihr hsr htr hQr]
  | case5 x l r y l' r' hlt hne ihl ihr =>
      intro hs ht hQ
      obtain ⟨hQx, hQl, hQr⟩ := forall_mem_inorder_node.mp hQ
      obtain ⟨hy, -, -, htl, htr⟩ := isTreap_node.mp ht
      have hxy := pry_lt_of_ne hinj (isTreap_node.mp hs).1 hy hne hlt
      obtain ⟨hsa, hsb, -, -⟩ := hs.splitWith (f := f) (k := key y) hkey hpry
      obtain ⟨hQa, hQb⟩ := forall_mem_splitWith key (key y) hf hQ
      have hside : ∀ {F : α → γ}, (∀ x, Q x → F (f x) = F x) → _ :=
        fun hF => find?_splitWith_side (k := k) (j := key y) hkey hF hs hQ
      have hcG : ∀ z x, Q x → G (c (f x) z) = G (c x z) := fun z x _ => by rw [hcf]
      rw [overlayWith_node, if_neg hlt, if_neg hne]
      rcases lt_trichotomy k (key y) with hk | rfl | hk
      · rw [find?_of_lt hk, find?_of_lt (l := l') hk, ihl hsa htl hQa]
        exact merge_map_congr _ ((hside hG).1 hk) fun z => (hside (hcG z)).1 hk
      · rw [find?_root, find?_root, hs.find?_root_of_lt hy hxy]
        rfl
      · rw [find?_of_gt hk, find?_of_gt (r := r') hk, ihr hsb htr hQb]
        exact merge_map_congr _ ((hside hG).2 hk) fun z => (hside (hcG z)).2 hk

end Overlay

/-! ### Subtracting from a tree that stays as it is -/

section Subtract

variable (f g : α → α) (key : α → K) (pry : α → P)

/-- Take the keys of the second tree out of the first, which is to stay as it is: what
is left of it on the path of the recursion is altered by `f`, what has to be joined
again by `g`. -/
def subtractWith : BinaryTree α → BinaryTree α → BinaryTree α
  | nil, _ => nil
  | node x l r, nil => node x l r
  | node x l r, node y l' r' =>
      if key x = key y then concatWith g pry (subtractWith l l') (subtractWith r r')
      else if pry y < pry x then
        node (f x) (subtractWith l (splitWith id key (key x) (node y l' r')).1)
          (subtractWith r (splitWith id key (key x) (node y l' r')).2)
      else subtractWith (node x l r) (concatWith g pry l' r')
termination_by s t => s.numNodes + t.numNodes
decreasing_by
  · simp only [numNodes]; omega
  · simp only [numNodes]; omega
  · have ht := numNodes_splitWith id key (key x) (node y l' r')
    simp only [numNodes] at *
    omega
  · have ht := numNodes_splitWith id key (key x) (node y l' r')
    simp only [numNodes] at *
    omega
  · simp only [numNodes, numNodes_concatWith]; omega

variable {f g key pry}

@[simp] theorem subtractWith_nil_left (t : BinaryTree α) :
    subtractWith f g key pry nil t = nil := by
  rw [subtractWith]

@[simp] theorem subtractWith_nil_right (s : BinaryTree α) :
    subtractWith f g key pry s nil = s := by
  cases s <;> rw [subtractWith]

theorem subtractWith_node (x y : α) (l r l' r' : BinaryTree α) :
    subtractWith f g key pry (node x l r) (node y l' r')
      = if key x = key y then
          concatWith g pry (subtractWith f g key pry l l') (subtractWith f g key pry r r')
        else if pry y < pry x then
          node (f x) (subtractWith f g key pry l (splitWith id key (key x) (node y l' r')).1)
            (subtractWith f g key pry r (splitWith id key (key x) (node y l' r')).2)
        else subtractWith f g key pry (node x l r) (concatWith g pry l' r') := by
  rw [subtractWith]

variable {h : K → P}

/-- Subtracting leaves a treap, of no key that was not there. -/
theorem IsTreap.subtractWith (hinj : Function.Injective h) (hf : ∀ x, key (f x) = key x)
    (hfp : ∀ x, pry (f x) = pry x) (hg : ∀ x, key (g x) = key x)
    (hgp : ∀ x, pry (g x) = pry x) {s t : BinaryTree α} :
    IsTreap key pry h s → IsTreap key pry h t →
      IsTreap key pry h (subtractWith f g key pry s t) ∧
        ∀ k ∈ keys key (Cartesian.subtractWith f g key pry s t), k ∈ keys key s := by
  induction s, t using Cartesian.subtractWith.induct g key pry with
  | case1 t => intro _ _; simp
  | case2 x l r => intro hs _; simpa using hs
  | case3 x l r y l' r' heq ihl ihr =>
      intro hs ht
      obtain ⟨hx, hl, hr, hsl, hsr⟩ := isTreap_node.mp hs
      obtain ⟨-, -, -, htl, htr⟩ := isTreap_node.mp ht
      obtain ⟨hL, hLsub⟩ := ihl hsl htl
      obtain ⟨hR, hRsub⟩ := ihr hsr htr
      rw [subtractWith_node, if_pos heq]
      refine ⟨hL.concatWith hinj hg hgp hR fun a ha b hb => ?_, fun k hk => ?_⟩
      · exact (hl a (hLsub a ha)).1.trans (hr b (hRsub b hb)).1
      · rw [keys_concatWith hg] at hk
        rw [keys_node, List.mem_append, List.mem_cons]
        exact (List.mem_append.mp hk).imp (hLsub k) fun hk => Or.inr (hRsub k hk)
  | case4 x l r y l' r' hne hlt ihl ihr =>
      intro hs ht
      obtain ⟨hx, hl, hr, hsl, hsr⟩ := isTreap_node.mp hs
      obtain ⟨hta, htb, -, -⟩ := ht.splitWith (f := id) (k := key x) (fun _ => rfl) (fun _ => rfl)
      obtain ⟨hL, hLsub⟩ := ihl hsl hta
      obtain ⟨hR, hRsub⟩ := ihr hsr htb
      rw [subtractWith_node, if_neg hne, if_pos hlt]
      refine ⟨isTreap_node.mpr ⟨by rw [hfp, hf, hx], ?_, ?_, hL, hR⟩, fun k hk => ?_⟩
      · intro a ha
        rw [hf]
        exact hl a (hLsub a ha)
      · intro b hb
        rw [hf]
        exact hr b (hRsub b hb)
      · rw [keys_node, List.mem_append, List.mem_cons, hf] at hk
        rw [keys_node, List.mem_append, List.mem_cons]
        exact hk.imp (hLsub k) (Or.imp id (hRsub k))
  | case5 x l r y l' r' hne hlt ih =>
      intro hs ht
      obtain ⟨-, hl', hr', htl, htr⟩ := isTreap_node.mp ht
      rw [subtractWith_node, if_neg hne, if_neg hlt]
      exact ih hs (htl.concatWith hinj hg hgp htr fun a ha b hb => (hl' a ha).1.trans (hr' b hb).1)

/-- What holds of all nodes of the first tree and survives the hooks still holds. -/
theorem forall_mem_subtractWith {Q : α → Prop} (hf : ∀ x, Q x → Q (f x))
    (hg : ∀ x, Q x → Q (g x)) {s t : BinaryTree α} :
    (∀ x ∈ s.inorder, Q x) → ∀ x ∈ (subtractWith f g key pry s t).inorder, Q x := by
  induction s, t using subtractWith.induct g key pry with
  | case1 t => intro _; simp
  | case2 x l r => intro hs; simpa using hs
  | case3 x l r y l' r' heq ihl ihr =>
      intro hs
      obtain ⟨-, hl, hr⟩ := forall_mem_inorder_node.mp hs
      rw [subtractWith_node, if_pos heq]
      exact forall_mem_concatWith hg (ihl hl) (ihr hr)
  | case4 x l r y l' r' hne hlt ihl ihr =>
      intro hs
      obtain ⟨hx, hl, hr⟩ := forall_mem_inorder_node.mp hs
      rw [subtractWith_node, if_neg hne, if_pos hlt]
      exact forall_mem_inorder_node.mpr ⟨hf x hx, ihl hl, ihr hr⟩
  | case5 x l r y l' r' hne hlt ih =>
      intro hs
      rw [subtractWith_node, if_neg hne, if_neg hlt]
      exact ih hs

variable {k : K}

/--
**Subtracting a treap leaves what is not found in it**, up to what the hooks alter.
-/
theorem find?_subtractWith (hinj : Function.Injective h) (hf : ∀ x, key (f x) = key x)
    (hfp : ∀ x, pry (f x) = pry x) (hg : ∀ x, key (g x) = key x)
    (hgp : ∀ x, pry (g x) = pry x) {γ : Type*} {G : α → γ} {Q : α → Prop}
    (hQf : ∀ x, Q x → Q (f x)) (hQg : ∀ x, Q x → Q (g x)) (hGf : ∀ x, Q x → G (f x) = G x)
    (hGg : ∀ x, Q x → G (g x) = G x) {s t : BinaryTree α} :
    IsTreap key pry h s → IsTreap key pry h t → (∀ x ∈ s.inorder, Q x) →
      (find? key k (subtractWith f g key pry s t)).map G
        = if (find? key k t).isSome then none else (find? key k s).map G := by
  induction s, t using Cartesian.subtractWith.induct g key pry with
  | case1 t => intro _ _ _; simp
  | case2 x l r => intro _ _ _; simp
  | case3 x l r y l' r' heq ihl ihr =>
      intro hs ht hQ
      obtain ⟨hQx, hQl, hQr⟩ := forall_mem_inorder_node.mp hQ
      obtain ⟨-, hl, hr, hsl, hsr⟩ := isTreap_node.mp hs
      obtain ⟨-, -, -, htl, htr⟩ := isTreap_node.mp ht
      obtain ⟨hL, hLsub⟩ := hsl.subtractWith hinj hf hfp hg hgp htl
      obtain ⟨hR, hRsub⟩ := hsr.subtractWith hinj hf hfp hg hgp htr
      have hnoL : key x ≤ k → find? key k (subtractWith f g key pry l l') = none := fun hle =>
        find?_eq_none fun hk => (hl k (hLsub k hk)).1.not_ge hle
      have hnoR : k ≤ key x → find? key k (subtractWith f g key pry r r') = none := fun hle =>
        find?_eq_none fun hk => (hr k (hRsub k hk)).1.not_ge hle
      rw [subtractWith_node, if_pos heq, find?_concatWith hg hGg hL hR
        (fun a ha b hb => (hl a (hLsub a ha)).1.trans (hr b (hRsub b hb)).1)
        (forall_mem_subtractWith hQf hQg hQl) (forall_mem_subtractWith hQf hQg hQr)]
      rcases lt_trichotomy k (key x) with hk | rfl | hk
      · rw [hnoR hk.le, Option.or_none, ihl hsl htl hQl, find?_of_lt hk, find?_of_lt (heq ▸ hk)]
      · rw [hnoL le_rfl, hnoR le_rfl, heq, find?_root]
        rfl
      · rw [hnoL hk.le, Option.none_or, ihr hsr htr hQr, find?_of_gt hk, find?_of_gt (heq ▸ hk)]
  | case4 x l r y l' r' hne hlt ihl ihr =>
      intro hs ht hQ
      obtain ⟨hQx, hQl, hQr⟩ := forall_mem_inorder_node.mp hQ
      obtain ⟨hx, -, -, hsl, hsr⟩ := isTreap_node.mp hs
      obtain ⟨hta, htb, -, -⟩ := ht.splitWith (f := id) (k := key x) (fun _ => rfl) (fun _ => rfl)
      rw [subtractWith_node, if_neg hne, if_pos hlt]
      rcases lt_trichotomy k (key x) with hk | rfl | hk
      · rw [find?_of_lt (by rwa [hf]), find?_of_lt hk, ihl hsl hta hQl, (find?_splitWith_id ht).1 hk]
      · rw [find?_root, ht.find?_root_of_lt hx hlt, ← hf x, find?_root]
        exact congrArg some (hGf x hQx)
      · rw [find?_of_gt (by rwa [hf]), find?_of_gt hk, ihr hsr htb hQr, (find?_splitWith_id ht).2 hk]
  | case5 x l r y l' r' hne hlt ih =>
      intro hs ht hQ
      obtain ⟨hy, hl', hr', htl, htr⟩ := isTreap_node.mp ht
      have hsep : ∀ a ∈ keys key l', ∀ b ∈ keys key r', a < b :=
        fun a ha b hb => (hl' a ha).1.trans (hr' b hb).1
      have hxy := pry_lt_of_ne hinj (isTreap_node.mp hs).1 hy hne hlt
      have hmap := find?_concatWith (k := k) (G := fun _ => ()) (Q := fun _ => True) hg
        (fun _ _ => rfl) htl htr hsep (fun _ _ => trivial) fun _ _ => trivial
      have hsome := congrArg Option.isSome hmap
      rw [Option.isSome_map, Option.isSome_map] at hsome
      rw [subtractWith_node, if_neg hne, if_neg hlt,
        ih hs (htl.concatWith hinj hg hgp htr hsep) hQ, hsome]
      -- The root that is discarded has a key the other tree does not have.
      rcases lt_trichotomy k (key y) with hk | rfl | hk
      · rw [find?_of_lt (l := l') hk,
          show find? key k r' = none from find?_eq_none fun hmem => (hr' k hmem).1.not_gt hk,
          Option.or_none]
      · rw [hs.find?_root_of_lt hy hxy]
        simp
      · rw [find?_of_gt (r := r') hk,
          show find? key k l' = none from find?_eq_none fun hmem => (hl' k hmem).1.not_gt hk,
          Option.none_or]

end Subtract

end Cartesian
