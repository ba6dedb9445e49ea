import Mathlib.Data.List.Basic

/-!
# Reading a list in pages

Items have weights and a page has room.  A page takes items from the front of a list for
as long as they fit, and the next page goes on behind them.  A packing goes through the
whole list and takes every item that still fits.
-/

namespace Paging

variable {Item : Type} (weight : Item → Nat)

/-- The weight of some items together. -/
def load : List Item → Nat
  | [] => 0
  | item :: items => weight item + load items

/-- The items at the front that fit. -/
def page : Nat → List Item → List Item
  | _, [] => []
  | room, item :: items =>
      if weight item ≤ room then item :: page (room - weight item) items else []

/-- The pages that follow each other, each with its own weights and room. -/
def pages : List ((Item → Nat) × Nat) → List Item → List (List Item)
  | [], _ => []
  | sheet :: sheets, items =>
      page sheet.1 sheet.2 items :: pages sheets (items.drop (page sheet.1 sheet.2 items).length)

/-- The items that are taken if each one that fits is taken. -/
def packing : Nat → List Item → List Item
  | _, [] => []
  | room, item :: items =>
      if weight item ≤ room then item :: packing (room - weight item) items
      else packing room items

variable {weight} {room : Nat} {item : Item} {items others : List Item}

@[simp]
theorem load_nil : load weight [] = 0 := rfl

@[simp]
theorem load_cons : load weight (item :: items) = weight item + load weight items := rfl

@[simp]
theorem load_append : load weight (items ++ others) = load weight items + load weight others := by
  induction items with
  | nil => rw [List.nil_append, load_nil, Nat.zero_add]
  | cons item items ih => rw [List.cons_append, load_cons, load_cons, ih, Nat.add_assoc]

/-! ## One page -/

theorem page_initial : page weight room items <+: items := by
  induction items generalizing room with
  | nil => exact List.nil_prefix
  | cons item items ih =>
      rw [page]
      split
      · exact (List.prefix_cons_inj item).mpr ih
      · exact List.nil_prefix

/-- A page has room for what it takes. -/
theorem load_page_le : load weight (page weight room items) ≤ room := by
  induction items generalizing room with
  | nil => exact Nat.zero_le _
  | cons item items ih =>
      rw [page]
      split
      · next fits =>
          have rest := @ih (room - weight item)
          rw [load_cons]
          omega
      · exact Nat.zero_le _

/-- A page and what is behind it are the whole list. -/
theorem page_append_drop :
    page weight room items ++ items.drop (page weight room items).length = items :=
  List.prefix_iff_eq_append.mp page_initial

/-- A page of other items with the same weights. -/
theorem page_map {Other : Type} (f : Item → Other) (weight : Other → Nat) :
    page weight room (items.map f) = (page (fun item => weight (f item)) room items).map f := by
  induction items generalizing room with
  | nil => rfl
  | cons item items ih =>
      rw [List.map_cons, page, page]
      split
      · rw [ih, List.map_cons]
      · rfl

/-- A page with room for the first item is not empty. -/
theorem page_ne_nil (fits : weight item ≤ room) : page weight room (item :: items) ≠ [] := by
  rw [page, if_pos fits]
  exact List.cons_ne_nil _ _

/-! ## All pages -/

/-- No pages show anything twice, leave anything out or change the order. -/
theorem flatten_pages_initial (sheets : List ((Item → Nat) × Nat)) :
    (pages sheets items).flatten <+: items := by
  induction sheets generalizing items with
  | nil => exact List.nil_prefix
  | cons sheet sheets ih =>
      obtain ⟨rest, whole⟩ := @ih (items.drop (page sheet.1 sheet.2 items).length)
      refine ⟨rest, ?_⟩
      rw [pages, List.flatten_cons, List.append_assoc, whole, page_append_drop]

theorem flatten_pages_nil (sheets : List ((Item → Nat) × Nat)) : (pages sheets []).flatten = [] :=
  List.prefix_nil.mp (flatten_pages_initial sheets)

/-- If every item fits on every page, there are enough pages once there are as many as
items. -/
theorem flatten_pages_eq {sheets : List ((Item → Nat) × Nat)}
    (ample : ∀ sheet ∈ sheets, ∀ item ∈ items, sheet.1 item ≤ sheet.2)
    (enough : items.length ≤ sheets.length) : (pages sheets items).flatten = items := by
  induction sheets generalizing items with
  | nil =>
      rw [List.eq_nil_of_length_eq_zero (Nat.le_zero.mp enough)]
      rfl
  | cons sheet sheets ih =>
      have rest : (pages sheets (items.drop (page sheet.1 sheet.2 items).length)).flatten =
          items.drop (page sheet.1 sheet.2 items).length := by
        refine ih (fun other later item behind => ?_) ?_
        · exact ample other (List.mem_cons_of_mem _ later) item (List.mem_of_mem_drop behind)
        · rw [List.length_drop]
          cases items with
          | nil => exact Nat.zero_le _
          | cons item items =>
              have shown := List.length_pos_of_ne_nil (@page_ne_nil _ sheet.1 sheet.2 item items
                (ample sheet List.mem_cons_self item List.mem_cons_self))
              simp only [List.length_cons] at enough ⊢
              omega
      rw [pages, List.flatten_cons, rest, page_append_drop]

/-! ## Packings -/

theorem packing_sublist : (packing weight room items).Sublist items := by
  induction items generalizing room with
  | nil => exact List.Sublist.slnil
  | cons item items ih =>
      rw [packing]
      split
      · exact ih.cons_cons item
      · exact ih.cons item

theorem load_packing_le : load weight (packing weight room items) ≤ room := by
  induction items generalizing room with
  | nil => exact Nat.zero_le _
  | cons item items ih =>
      rw [packing]
      split
      · next fits =>
          have rest := @ih (room - weight item)
          rw [load_cons]
          omega
      · exact ih

/-- One more item is taken if it fits into what is left. -/
theorem packing_concat : packing weight room (items ++ [item]) =
    if load weight (packing weight room items) + weight item ≤ room then
      packing weight room items ++ [item] else packing weight room items := by
  induction items generalizing room with
  | nil =>
      simp only [List.nil_append, packing, load_nil, Nat.zero_add]
  | cons first items ih =>
      by_cases fits : weight first ≤ room
      · simp only [List.cons_append, packing, if_pos fits, ih, load_cons]
        by_cases more : load weight (packing weight (room - weight first) items) + weight item ≤
            room - weight first
        · rw [if_pos more, if_pos (by omega)]
        · rw [if_neg more, if_neg (by omega)]
      · simp only [List.cons_append, packing, if_neg fits, ih]

end Paging
