import Etymon.Evolver
import Etymon.Proofs.Json

/-!
# Cache files are read back

The file that a cache is saved to is read as what the cache held, or not at all when its queries are
nested too deep for the reader.

## Main definitions

* `Codec.Faithful`: what is written of a value is read as that value.

## Main results

* `Query.codec_faithful`, `Evolved.codec_faithful`, `TraceLine.codec_faithful`: the codecs of the
  caches are faithful.
* `PersistentCache.saved?_write`: what is read from the file of a cache.
-/

namespace Etymon

/-! ## Sorted maps -/

namespace SortedMap

variable {α : Type}

theorem items_foldl_insert (m : SortedMap α) {items : List (String × α)}
    (h : (m.items ++ items).Pairwise fun a b => a.1 < b.1) :
    (items.foldl (fun m item => m.insert item.1 item.2) m).items = m.items ++ items := by
  induction items generalizing m with
  | nil => simp
  | cons item rest ih =>
    have hinsert : (m.insert item.1 item.2).items = m.items ++ [item] :=
      insertSorted_of_forall_lt item.2 fun other hother =>
        (List.pairwise_append.1 h).2.2 other hother item (by simp)
    rw [List.foldl_cons, ih, hinsert, List.append_assoc, List.singleton_append]
    rwa [hinsert, List.append_assoc, List.singleton_append]

/-- A map is the map of its items. -/
theorem ofList_items (m : SortedMap α) : ofList m.items = m := by
  have hitems := items_foldl_insert (empty : SortedMap α) m.sorted
  cases m with
  | mk items sorted =>
    rw [ofList]
    generalize List.foldl _ _ _ = found at hitems ⊢
    cases found
    simpa [empty] using hitems

end SortedMap

/-! ## Codecs -/

/-- What is written of a value can be read, and is read as the value if it is not nested too deep. -/
structure Codec.Faithful {α : Type} (codec : Codec α) : Prop where
  plain : ∀ a, (codec.encode a).Plain
  decode? : ∀ a, (codec.encode a).depth ≤ Json.maxDepth → codec.decode? (codec.encode a) = some a

theorem Evolved.codec_faithful : codec.Faithful := by
  constructor
  · intro e
    refine .object _ fun m hm => ?_
    simp only [List.mem_cons, List.not_mem_nil, or_false] at hm
    rcases hm with rfl | rfl | rfl <;> exact .string _
  · intro e _
    simp [codec, toJson, ofJson?, Json.hasArity, Json.required?, Json.field?, Json.asString?]

theorem TraceLine.ofJson?_toJson (l : TraceLine) : ofJson? l.toJson = some l := by
  simp [toJson, ofJson?, Json.hasArity, Json.required?, Json.field?, Json.asString?]

theorem plain_encodeEra (era : Option Era) : (encodeEra era).Plain := by
  cases era with
  | none => exact .null
  | some era => exact .string _

theorem depth_encodeEra (era : Option Era) : (encodeEra era).depth = 0 := by
  cases era <;> simp [encodeEra, Era.toJson, Json.depth]

theorem optional?_encodeEra {members : List (String × Json)} {place : Nat} {name : String}
    {era : Option Era} (h : members.filter (fun m => m.1 = name) = [(name, encodeEra era)]) :
    Json.optional? Json.asEra? place name (.object members) = some era := by
  rw [Json.optional?, Json.field?, h]
  cases era <;> rfl

namespace Query

theorem plain_toJson (q : Query) : q.toJson.Plain := by
  induction q with
  | leaf form start stop =>
    refine .object _ fun m hm => ?_
    simp only [List.mem_cons, List.not_mem_nil, or_false] at hm
    rcases hm with rfl | rfl | rfl | rfl
    · exact .string _
    · exact .string _
    · exact plain_encodeEra _
    · exact plain_encodeEra _
  | node stress head tail start stop ihh iht =>
    refine .object _ fun m hm => ?_
    simp only [List.mem_cons, List.not_mem_nil, or_false] at hm
    rcases hm with rfl | rfl | rfl | rfl | rfl | rfl
    · exact .string _
    · cases stress <;> exact .string _
    · exact ihh
    · exact iht
    · exact plain_encodeEra _
    · exact plain_encodeEra _

theorem depth_toJson_leaf (form : String) (start stop : Option Era) :
    (leaf form start stop).toJson.depth = 1 := by
  simp [toJson, Json.depth, Json.depthOfMembers, depth_encodeEra]

theorem depth_toJson_node (stress : Stress) (head tail : Query) (start stop : Option Era) :
    (node stress head tail start stop).toJson.depth =
      max head.toJson.depth tail.toJson.depth + 1 := by
  cases stress <;>
    simp [toJson, Json.depth, Json.depthOfMembers, depth_encodeEra, Stress.toJson]

theorem untag?_cons {kind : String} {members : List (String × Json)}
    (h : ∀ m ∈ members, m.1 ≠ "kind") :
    untag? (.object (("kind", .string kind) :: members)) = some (kind, .object members) := by
  have hnone : members.filter (fun m => m.1 = "kind") = [] :=
    List.filter_eq_nil_iff.2 fun m hm => by simpa using h m hm
  have hall : members.filter (fun m => m.1 ≠ "kind") = members :=
    List.filter_eq_self.2 fun m hm => by simpa using h m hm
  rw [untag?, List.filter_cons_of_pos (by simp), hnone, List.filter_cons_of_neg (by simp), hall]
  rfl

/-- A written query is read as itself when the reader goes deep enough, and else not at all. -/
theorem ofJsonWithin?_toJson (q : Query) (depth : Nat) :
    ofJsonWithin? depth q.toJson = if q.toJson.depth ≤ depth then some q else none := by
  induction q generalizing depth with
  | leaf form start stop =>
    rw [depth_toJson_leaf]
    cases depth with
    | zero => rfl
    | succ depth =>
      have hstart : Json.optional? Json.asEra? 1 "start" (.object [("form", .string form),
          ("start", encodeEra start), ("end", encodeEra stop)]) = some start :=
        optional?_encodeEra (by simp)
      have hstop : Json.optional? Json.asEra? 2 "end" (.object [("form", .string form),
          ("start", encodeEra start), ("end", encodeEra stop)]) = some stop :=
        optional?_encodeEra (by simp)
      rw [toJson, ofJsonWithin?, untag?_cons (by simp)]
      simp [Json.hasArity, Json.required?, Json.field?, Json.asString?, hstart, hstop]
  | node stress head tail start stop ihh iht =>
    rw [depth_toJson_node]
    cases depth with
    | zero => rfl
    | succ depth =>
      have hstress : Stress.ofJson? stress.toJson = some stress := by cases stress <;> rfl
      have hstart : Json.optional? Json.asEra? 3 "start" (.object [("stress", stress.toJson),
          ("head", head.toJson), ("tail", tail.toJson), ("start", encodeEra start),
          ("end", encodeEra stop)]) = some start :=
        optional?_encodeEra (by simp)
      have hstop : Json.optional? Json.asEra? 4 "end" (.object [("stress", stress.toJson),
          ("head", head.toJson), ("tail", tail.toJson), ("start", encodeEra start),
          ("end", encodeEra stop)]) = some stop :=
        optional?_encodeEra (by simp)
      rw [toJson, ofJsonWithin?, untag?_cons (by simp)]
      simp only [Option.bind_eq_bind, Option.bind_some]
      by_cases hhead : head.toJson.depth ≤ depth
      · by_cases htail : tail.toJson.depth ≤ depth
        · simp [Json.hasArity, Json.required?, Json.field?, hstress, ihh, iht, hhead, htail, hstart,
            hstop]
        · simp [Json.hasArity, Json.required?, Json.field?, hstress, ihh, iht, hhead, htail]
      · simp [Json.hasArity, Json.required?, Json.field?, hstress, ihh, hhead]

theorem codec_faithful : codec.Faithful := by
  refine ⟨plain_toJson, fun q hq => ?_⟩
  change ofJsonWithin? (Json.maxDepth + 1) q.toJson = some q
  change q.toJson.depth ≤ Json.maxDepth at hq
  rw [ofJsonWithin?_toJson, if_pos (by omega)]

end Query

/-! ## Files of caches -/

theorem mapM_map_eq_some {α β : Type} {encode : α → β} {decode : β → Option α} {items : List α}
    (h : ∀ a ∈ items, decode (encode a) = some a) : (items.map encode).mapM decode = some items := by
  induction items with
  | nil => rfl
  | cons a items ih =>
    rw [List.forall_mem_cons] at h
    rw [List.map_cons, List.mapM_cons, h.1, ih h.2]
    rfl

theorem TraceLine.codec_faithful : codec.Faithful := by
  constructor
  · intro lines
    refine .array _ fun item hitem => ?_
    obtain ⟨line, -, rfl⟩ := List.mem_map.1 hitem
    refine .object _ fun m hm => ?_
    simp only [List.mem_cons, List.not_mem_nil, or_false] at hm
    rcases hm with rfl | rfl | rfl | rfl <;> exact .string _
  · intro lines _
    exact mapM_map_eq_some fun line _ => ofJson?_toJson line

namespace Json

theorem depth_le_depthOfItems {item : Json} {items : List Json} (h : item ∈ items) :
    item.depth ≤ depthOfItems items := by
  induction items with
  | nil => cases h
  | cons first rest ih =>
    rw [depthOfItems]
    rcases List.mem_cons.1 h with rfl | h
    · exact Nat.le_max_left ..
    · exact Nat.le_trans (ih h) (Nat.le_max_right ..)

end Json

namespace PersistentCache

theorem mapOfJson?_mapToJson {α : Type} {encode : α → Json} {decode : Json → Option α}
    {m : SortedMap α} (h : ∀ item ∈ m.items, decode (encode item.2) = some item.2) :
    mapOfJson? decode (mapToJson encode m) = some m := by
  have hitems : (m.items.map fun item => (item.1, encode item.2)).mapM
      (fun item => (decode item.2).map (item.1, ·)) = some m.items :=
    mapM_map_eq_some fun item hitem => by
      dsimp only
      rw [h item hitem]
      rfl
  rw [mapToJson, mapOfJson?]
  have hfun : (fun m : String × Json => do return (m.1, ← decode m.2)) =
      fun m => (decode m.2).map (m.1, ·) := by
    funext m
    cases decode m.2 <;> rfl
  rw [hfun, hitems]
  simp [SortedMap.ofList_items]

theorem time?_int (n : Int) : time? (.int n) =
    if 0 ≤ n ∧ n < 18446744073709551616 then some n.toNat else none := rfl

theorem time?_of_lt {n : Nat} (h : n < 18446744073709551616) : time? (.int n) = some n := by
  have hint : (0 : Int) ≤ n ∧ (n : Int) < 18446744073709551616 := by omega
  rw [time?_int, if_pos hint, Int.toNat_natCast]

variable {κ ν : Type} {keys : Codec κ} {values : Codec ν}

theorem plain_toJson (hkeys : keys.Faithful) (hvalues : values.Faithful) {c : PersistentCache κ ν}
    (htimes : ∀ item ∈ c.times.items, item.2 < 18446744073709551616) :
    (c.toJson keys values).Plain := by
  refine .object _ fun m hm => ?_
  simp only [List.mem_cons, List.not_mem_nil, or_false] at hm
  rcases hm with rfl | rfl | rfl | rfl | rfl
  · exact .int 1 (by decide)
  · exact .string _
  · refine .array _ fun item hitem => ?_
    obtain ⟨entry, -, rfl⟩ := List.mem_map.1 hitem
    refine .array _ fun item hitem => ?_
    simp only [List.mem_cons, List.not_mem_nil, or_false] at hitem
    rcases hitem with rfl | rfl
    · exact hkeys.plain _
    · exact hvalues.plain _
  · refine .object _ fun item hitem => ?_
    obtain ⟨time, htime, rfl⟩ := List.mem_map.1 hitem
    exact .int _ (htimes time htime)
  · refine .object _ fun item hitem => ?_
    obtain ⟨hash, -, rfl⟩ := List.mem_map.1 hitem
    exact .string _

/-- The file of a cache is read as what the cache held, or not at all. -/
theorem saved?_write [DecidableEq κ] (hkeys : keys.Faithful) (hvalues : values.Faithful)
    {c : PersistentCache κ ν} (htimes : ∀ item ∈ c.times.items, item.2 < 18446744073709551616) :
    saved? keys values (c.toJson keys values).write =
      if (c.toJson keys values).depth ≤ Json.maxDepth then
        some ⟨c.settings, c.entries.foldl (fun known e => setEntry e.1 e.2 known) [], c.times,
          c.hashes⟩
      else none := by
  rw [saved?, Json.parse?_write (plain_toJson hkeys hvalues htimes)]
  by_cases hdepth : (c.toJson keys values).depth ≤ Json.maxDepth
  · rw [if_pos hdepth, if_pos hdepth]
    have hentries : (c.entries.map fun e => Json.array [keys.encode e.1, values.encode e.2]).mapM
        (Json.pair? keys.decode? values.decode?) = some c.entries := by
      have hentriesDepth : Json.depthOfItems
          (c.entries.map fun e => Json.array [keys.encode e.1, values.encode e.2]) + 1 ≤
          (c.toJson keys values).depth := by
        simp only [toJson, Json.depth, Json.depthOfMembers]
        omega
      refine mapM_map_eq_some fun e he => ?_
      have hentry := Json.depth_le_depthOfItems (List.mem_map_of_mem
        (f := fun e => Json.array [keys.encode e.1, values.encode e.2]) he)
      simp only [Json.depth, Json.depthOfItems] at hentry
      rw [Json.pair?, hkeys.decode? _ (by omega), hvalues.decode? _ (by omega)]
      rfl
    have htimes' : mapOfJson? time? (mapToJson (fun n : Nat => .int n) c.times) = some c.times :=
      mapOfJson?_mapToJson fun item hitem => time?_of_lt (htimes item hitem)
    have hhashes : mapOfJson? Json.asString? (mapToJson .string c.hashes) = some c.hashes :=
      mapOfJson?_mapToJson fun item _ => rfl
    have hversion : version? (.int version) = some version := by decide
    simp [toJson, Json.hasArity, Json.required?, Json.defaulted?, Json.field?, Json.asString?,
      Json.asArray?, hversion, hentries, htimes', hhashes]
  · rw [if_neg hdepth, if_neg hdepth]
    rfl

end PersistentCache

end Etymon
