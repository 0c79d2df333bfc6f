import SecondaryIndex.KeyRange

namespace SecondaryIndex.TokenSet

def insert (t : Token) : List Token → List Token
  | [] => [t]
  | u :: rest => if t < u then t :: u :: rest else if t = u then u :: rest else u :: insert t rest

def ofList (ts : List Token) : List Token := ts.foldr insert []

theorem mem_insert {a t : Token} {ts : List Token} : a ∈ insert t ts ↔ a = t ∨ a ∈ ts := by
  induction ts with
  | nil => simp [insert]
  | cons u rest ih => grind [insert]

theorem pairwise_insert {t : Token} {ts : List Token} (h : ts.Pairwise (· < ·)) :
    (insert t ts).Pairwise (· < ·) := by
  induction ts with
  | nil => simp [insert]
  | cons u rest ih => grind [insert, mem_insert, List.pairwise_cons]

theorem insert_of_mem {t : Token} {ts : List Token} (hts : ts.Pairwise (· < ·)) (ht : t ∈ ts) :
    insert t ts = ts := by
  induction ts with
  | nil => cases ht
  | cons u rest ih => grind [insert, List.pairwise_cons]

theorem perm_insert {t : Token} {ts : List Token} (ht : t ∉ ts) : (insert t ts).Perm (t :: ts) := by
  induction ts with
  | nil => exact .refl _
  | cons u rest ih =>
    rw [List.mem_cons, not_or] at ht
    rw [insert, if_neg ht.1]
    split
    · exact .refl _
    · exact ((ih ht.2).cons u).trans (.swap t u rest)

theorem mem_ofList {a : Token} {ts : List Token} : a ∈ ofList ts ↔ a ∈ ts := by
  induction ts with
  | nil => simp [ofList]
  | cons t rest ih => simpa [ofList, mem_insert] using or_congr_right ih

theorem pairwise_ofList (ts : List Token) : (ofList ts).Pairwise (· < ·) := by
  induction ts with
  | nil => exact .nil
  | cons t rest ih => exact pairwise_insert ih

end SecondaryIndex.TokenSet
