import Jeopardy.Hotring.Packed
import Jeopardy.Lib.Circular

/-!
# The list primitives on packed words

What the primitives of `hotring/list.h` do to the circular lists seen through `addr`, and to the
tag bits of the nodes on them. `list_add` and `list_del` store through `addr` and keep the bits
of a node that stays. `list_del_init` and `list_move` copy the whole word of the unlinked node
into its predecessor, and `list_empty` compares the whole word with a plain pointer.
-/

namespace Jeopardy.Hotring.Packed

open Rings Fault

variable {m : Heads} {rs : List (List Addr)} {new p e q x : Addr} {w wp we : Word}

/-! ### What each primitive stores -/

theorem listAdd_eq (hn : m new = some w) (hp : m p = some wp) (hne : p ≠ new) :
    listAdd m new p
      = .ok (Function.update (Function.update m new (some wp)) p (some (wp.setAddr new))) := by
  have hp' : Function.update m new (some wp) p = some wp := by
    rw [Function.update_of_ne hne, hp]
  rw [listAdd, Heads.load_eq hp, ok_bind, rawListAdd, Heads.storeNext_eq hn, ok_bind,
    Heads.storeAddr_eq hp']

theorem listDel_eq (hp : m p = some wp) (he : m e = some we) :
    listDel m p e = .ok (Function.update (Function.update m p (some (wp.setAddr we.addr))) e
      (some listPoison1)) := by
  obtain ⟨w, hw⟩ : ∃ w, Function.update m p (some (wp.setAddr we.addr)) e = some w := by
    rw [Function.update_apply]
    split
    · exact ⟨_, rfl⟩
    · exact ⟨we, he⟩
  rw [listDel, Heads.load_eq he, ok_bind, rawListDelByAddr, Heads.storeAddr_eq hp, ok_bind,
    Heads.storeNext_eq hw]

theorem listDelInit_eq (hp : m p = some wp) (he : m e = some we) :
    listDelInit m p e
      = .ok (Function.update (Function.update m p (some we)) e (some (Word.ofPtr e))) := by
  have he' : Function.update m p (some we) e = some we := by
    rw [Function.update_apply, he, ite_self]
  rw [listDelInit, Heads.load_eq he, ok_bind, rawListDel, Heads.storeNext_eq hp, ok_bind,
    initListHead, Heads.storeNext_eq he']

theorem listMove_eq (hp : m p = some wp) (he : m e = some we)
    (hq : Function.update m p (some we) q = some w) (hne : q ≠ e) :
    listMove m p e q = .ok (Function.update (Function.update (Function.update m p (some we)) e
      (some w)) q (some (w.setAddr e))) := by
  have he' : Function.update m p (some we) e = some we := by
    rw [Function.update_apply, he, ite_self]
  rw [listMove, Heads.load_eq he, ok_bind, rawListDel, Heads.storeNext_eq hp, ok_bind,
    listAdd_eq he' hq hne]

/-! ### Comparison with the plain list -/

/-- `run` completes with the links `next` and the circular lists `rs'`, and the nodes that were on
the lists `rs` keep their tag bits, apart from `x`. -/
def ActsAs (m : Heads) (rs : List (List Addr)) (run : Except Fault Heads)
    (next : Addr → Option Addr) (rs' : List (List Addr)) (x : Addr) : Prop :=
  ∃ m', run = .ok m' ∧ m'.link = next ∧ AreRings m'.link rs' ∧
    ∀ a ∈ rs.flatten, a ≠ x → m'.tags a = m.tags a

theorem actsAs_iff {m' : Heads} {run : Except Fault Heads} {next : Addr → Option Addr}
    {rs' : List (List Addr)} (hrun : run = .ok m') (hlink : m'.link = next)
    (hrings : AreRings next rs') :
    ActsAs m rs run next rs' x ↔ ∀ a ∈ rs.flatten, a ≠ x → m'.tags a = m.tags a := by
  constructor
  · rintro ⟨m₁, hrun₁, -, -, htags⟩
    obtain rfl : m' = m₁ := Except.ok.inj (hrun.symm.trans hrun₁)
    exact htags
  · intro htags
    exact ⟨m', hrun, hlink, hlink ▸ hrings, htags⟩

theorem exists_word (h : AreRings m.link rs) (hx : x ∈ rs.flatten) : ∃ w, m x = some w := by
  obtain ⟨r, hr, hxr⟩ := List.mem_flatten.mp hx
  obtain ⟨b, -, hb⟩ := (h.ring r hr).next_mem hxr
  obtain ⟨w, hw, -⟩ := Option.map_eq_some_iff.mp (show (m x).map Word.addr = some b from hb)
  exact ⟨w, hw⟩

theorem mem_of_link (h : AreRings m.link rs) (hp : p ∈ rs.flatten) (hpe : m.link p = some e) :
    e ∈ rs.flatten := by
  obtain ⟨r, hr, hpr⟩ := List.mem_flatten.mp hp
  obtain ⟨b, hb, hpb⟩ := (h.ring r hr).next_mem hpr
  obtain rfl : b = e := Option.some.inj (hpb.symm.trans hpe)
  exact List.mem_flatten.mpr ⟨r, hr, hb⟩

/-- `list_add` acts as on a plain list. -/
theorem listAdd_actsAs (h : AreRings m.link rs) (hp : p ∈ rs.flatten) (hx : new ∉ rs.flatten)
    (hn : m new = some w) :
    ActsAs m rs (listAdd m new p) (linkIn m.link new p) (rs.map (insertAfter p new)) new := by
  obtain ⟨wp, hwp⟩ := exists_word h hp
  have hne : p ≠ new := by
    rintro rfl
    exact hx hp
  refine (actsAs_iff (listAdd_eq hn hwp hne) ?_ (h.linkIn hp hx)).mpr ?_
  · rw [Heads.link_update, Heads.link_update, Word.addr_setAddr, linkIn, Heads.link_eq hwp]
  · intro a _ ha
    rw [Heads.tags_update, Word.tags_setAddr, ← Heads.tags_eq hwp, Function.update_apply]
    split
    · next hap => rw [hap]
    · rw [Heads.tags_update, Function.update_of_ne ha]

/-- `list_del` acts as on a plain list. -/
theorem listDel_actsAs (h : AreRings m.link rs) (hp : p ∈ rs.flatten) (hpe : m.link p = some e) :
    ActsAs m rs (listDel m p e) (unlink m.link p e (some listPoison1.addr))
      (rs.map (·.erase e)) e := by
  obtain ⟨wp, hwp⟩ := exists_word h hp
  obtain ⟨we, hwe⟩ := exists_word h (mem_of_link h hp hpe)
  refine (actsAs_iff (listDel_eq hwp hwe) ?_ (h.unlink hp hpe _)).mpr ?_
  · rw [Heads.link_update, Heads.link_update, Word.addr_setAddr, unlink, Heads.link_eq hwe]
  · intro a _ ha
    rw [Heads.tags_update, Function.update_of_ne ha, Heads.tags_update, Word.tags_setAddr,
      ← Heads.tags_eq hwp, Function.update_eq_self]

/-- Copying the word of `e` into `p` keeps the tag bits exactly if the two agree in them. -/
theorem copy_keeps_iff (hp : p ∈ rs.flatten) :
    (∀ a ∈ rs.flatten, a ≠ e → Function.update m.tags p (m.tags e) a = m.tags a) ↔
      m.tags p = m.tags e := by
  constructor
  · intro hkeep
    by_cases hpe : p = e
    · rw [hpe]
    · have hpp := hkeep p hp hpe
      rw [Function.update_self] at hpp
      exact hpp.symm
  · intro htags a _ _
    rw [← htags, Function.update_eq_self]

theorem listDelInit_actsAs_iff (h : AreRings m.link rs) (hp : p ∈ rs.flatten)
    (hpe : m.link p = some e) :
    ActsAs m rs (listDelInit m p e) (unlink m.link p e (some e)) ([e] :: rs.map (·.erase e)) e ↔
      m.tags p = m.tags e := by
  obtain ⟨wp, hwp⟩ := exists_word h hp
  obtain ⟨we, hwe⟩ := exists_word h (mem_of_link h hp hpe)
  rw [actsAs_iff (listDelInit_eq hwp hwe) ?_ (h.unlink_self hp hpe), ← copy_keeps_iff hp]
  · refine forall₃_congr fun a _ ha ↦ ?_
    rw [Heads.tags_update, Function.update_of_ne ha, Heads.tags_update, Heads.tags_eq hwe]
  · rw [Heads.link_update, Heads.link_update, Word.addr_ofPtr, unlink, Heads.link_eq hwe]

theorem listMove_actsAs_iff (h : AreRings m.link rs) (hp : p ∈ rs.flatten)
    (hpe : m.link p = some e) (hq : q ∈ rs.flatten) (hne : q ≠ e) :
    ActsAs m rs (listMove m p e q) (moveBehind m.link p e q)
      ((rs.map (·.erase e)).map (insertAfter q e)) e ↔ m.tags p = m.tags e := by
  obtain ⟨wp, hwp⟩ := exists_word h hp
  obtain ⟨we, hwe⟩ := exists_word h (mem_of_link h hp hpe)
  obtain ⟨w, hw⟩ : ∃ w, Function.update m p (some we) q = some w := by
    rw [Function.update_apply]
    split
    · exact ⟨we, rfl⟩
    · exact exists_word h hq
  rw [actsAs_iff (listMove_eq hwp hwe hw hne) ?_ (h.moveBehind hp hpe hq hne),
    ← copy_keeps_iff hp]
  · refine forall₃_congr fun a _ ha ↦ ?_
    have hwq := Heads.tags_eq hw
    rw [Heads.tags_update, ← Heads.tags_eq hwe] at hwq
    rw [Heads.tags_update, Word.tags_setAddr, ← hwq, Function.update_apply, Heads.tags_update,
      Function.update_of_ne ha, Heads.tags_update, ← Heads.tags_eq hwe]
    split
    · next haq => rw [haq]
    · rfl
  · have hwq := Heads.link_eq hw
    rw [Heads.link_update] at hwq
    rw [Heads.link_update, Heads.link_update, Heads.link_update, Word.addr_setAddr, moveBehind,
      linkIn, Heads.link_eq hwe, hwq]

/-- `list_empty` tells a node that is alone exactly if such a node has clear tag bits. -/
theorem listEmpty_iff (h : AreRings m.link rs) (hx : x ∈ rs.flatten) :
    (∃ b, listEmpty m x = .ok b ∧ (b = true ↔ [x] ∈ rs)) ↔
      (m.link x = some x → m.tags x = some .clear) := by
  obtain ⟨w, hw⟩ := exists_word h hx
  have hrun : listEmpty m x = .ok (w == Word.ofPtr x) := by
    rw [listEmpty, Heads.load_eq hw]
    rfl
  rw [← h.next_self_iff hx, Heads.link_eq hw, Heads.tags_eq hw, Option.some.injEq,
    Option.some.injEq]
  constructor
  · rintro ⟨b, hb, hiff⟩ ha
    obtain rfl := Except.ok.inj (hrun.symm.trans hb)
    exact (Word.eq_ofPtr_iff.mp (eq_of_beq (hiff.mpr ha))).2
  · intro htags
    refine ⟨_, hrun, ?_⟩
    rw [beq_iff_eq, Word.eq_ofPtr_iff]
    exact ⟨fun hb ↦ hb.1, fun ha ↦ ⟨ha, htags ha⟩⟩

/-! ### All primitives -/

/-- A call of a primitive, with the source's arguments. -/
inductive Primitive where
  | add (new head : Addr)
  | del (prev entry : Addr)
  | delInit (prev entry : Addr)
  | move (prev list head : Addr)
  | empty (head : Addr)
deriving DecidableEq, Repr

namespace Primitive

/-- The arguments stand to each other as the primitive needs it: `prev` is the predecessor of the
node to unlink, and a node is linked in behind another node of a circular list. -/
def Fits (m : Heads) (rs : List (List Addr)) : Primitive → Prop
  | add new head => head ∈ rs.flatten ∧ new ∉ rs.flatten ∧ (m new).isSome
  | del prev entry => prev ∈ rs.flatten ∧ m.link prev = some entry
  | delInit prev entry => prev ∈ rs.flatten ∧ m.link prev = some entry
  | move prev list head =>
    prev ∈ rs.flatten ∧ m.link prev = some list ∧ head ∈ rs.flatten ∧ head ≠ list
  | empty head => head ∈ rs.flatten

/-- The primitive does on packed words what it does on a plain circular list. -/
def Law (m : Heads) (rs : List (List Addr)) : Primitive → Prop
  | add new head =>
    ActsAs m rs (listAdd m new head) (linkIn m.link new head) (rs.map (insertAfter head new)) new
  | del prev entry =>
    ActsAs m rs (listDel m prev entry) (unlink m.link prev entry (some listPoison1.addr))
      (rs.map (·.erase entry)) entry
  | delInit prev entry =>
    ActsAs m rs (listDelInit m prev entry) (unlink m.link prev entry (some entry))
      ([entry] :: rs.map (·.erase entry)) entry
  | move prev list head =>
    ActsAs m rs (listMove m prev list head) (moveBehind m.link prev list head)
      ((rs.map (·.erase list)).map (insertAfter head list)) list
  | empty head => ∃ b, listEmpty m head = .ok b ∧ (b = true ↔ [head] ∈ rs)

/-- The tag bits do not come in the way of a primitive that handles the whole word. -/
def TagsFit (m : Heads) : Primitive → Prop
  | add _ _ => True
  | del _ _ => True
  | delInit prev entry => m.tags prev = m.tags entry
  | move prev list _ => m.tags prev = m.tags list
  | empty head => m.link head = some head → m.tags head = some .clear

end Primitive

/-- On any circular lists and with any tag bits, a primitive acts as on a plain list exactly if the
tag bits do not come in its way. -/
theorem primitive_law_iff (h : AreRings m.link rs) {c : Primitive} (hc : c.Fits m rs) :
    c.Law m rs ↔ c.TagsFit m := by
  cases c with
  | add new head =>
    obtain ⟨hhead, hnew, hw⟩ := hc
    obtain ⟨w, hw⟩ := Option.isSome_iff_exists.mp hw
    exact iff_of_true (listAdd_actsAs h hhead hnew hw) trivial
  | del prev entry => exact iff_of_true (listDel_actsAs h hc.1 hc.2) trivial
  | delInit prev entry => exact listDelInit_actsAs_iff h hc.1 hc.2
  | move prev list head => exact listMove_actsAs_iff h hc.1 hc.2.1 hc.2.2.1 hc.2.2.2
  | empty head => exact listEmpty_iff h hc

/-- The list heads with the given words. -/
def headsAt (ws : List (Addr × Word)) : Heads := fun a ↦ ws.lookup a

/-- Two nodes on one list, the first with counter 1 and the second with counter 0. -/
def unevenPair : Heads := headsAt [(0x1000, 0x0001000000002000), (0x2000, 0x0000000000001000)]

/-- A node with counter 1 alone on its list. -/
def countedOne : Heads := headsAt [(0x1000, 0x0001000000001000)]

private theorem areRings_pair {w₁ w₂ : Word} (h₁ : w₁.addr = 0x2000) (h₂ : w₂.addr = 0x1000) :
    AreRings (headsAt [(0x1000, w₁), (0x2000, w₂)]).link [[0x1000, 0x2000]] where
  disjoint := List.pairwise_singleton _ _
  ring r hr := by
    rw [List.mem_singleton.mp hr]
    exact ⟨by decide, congrArg some h₁, congrArg some h₂⟩

private theorem areRings_one {w : Word} (hw : w.addr = 0x1000) :
    AreRings (headsAt [(0x1000, w)]).link [[0x1000]] where
  disjoint := List.pairwise_singleton _ _
  ring r hr := by
    rw [List.mem_singleton.mp hr]
    exact isRing_singleton.mpr (congrArg some hw)

/-- `list_del_init` on two nodes whose counters are 5. -/
theorem primitive_law_iff_pair :
    (Primitive.delInit 0x1000 0x2000).Law
      (headsAt [(0x1000, 0x0005000000002000), (0x2000, 0x0005000000001000)])
      [[0x1000, 0x2000]] :=
  (primitive_law_iff (areRings_pair (by decide) (by decide))
    (show Primitive.Fits _ _ (.delInit 0x1000 0x2000) from ⟨by decide, by decide⟩)).mpr (by rfl)

/-- `list_del_init` and `list_move` overwrite the counter of the predecessor, and `list_empty`
overlooks that a node is alone. -/
theorem whole_word_loses_tags :
    (AreRings unevenPair.link [[0x1000, 0x2000]] ∧
      (Primitive.delInit 0x1000 0x2000).Fits unevenPair [[0x1000, 0x2000]] ∧
      ¬ (Primitive.delInit 0x1000 0x2000).Law unevenPair [[0x1000, 0x2000]] ∧
      (Primitive.move 0x1000 0x2000 0x1000).Fits unevenPair [[0x1000, 0x2000]] ∧
      ¬ (Primitive.move 0x1000 0x2000 0x1000).Law unevenPair [[0x1000, 0x2000]]) ∧
    AreRings countedOne.link [[0x1000]] ∧ (Primitive.empty 0x1000).Fits countedOne [[0x1000]] ∧
      ¬ (Primitive.empty 0x1000).Law countedOne [[0x1000]] := by
  have hpair : AreRings unevenPair.link [[0x1000, 0x2000]] :=
    areRings_pair (by decide) (by decide)
  have hone : AreRings countedOne.link [[0x1000]] := areRings_one (by decide)
  refine ⟨⟨hpair, ⟨by decide, by decide⟩, ?_, ⟨by decide, by decide, by decide, by decide⟩, ?_⟩,
    hone, List.mem_singleton.mpr rfl, ?_⟩
  · intro hlaw
    have htags := (listDelInit_actsAs_iff hpair (by decide) (by decide)).mp hlaw
    exact absurd htags (by decide)
  · intro hlaw
    have htags :=
      (listMove_actsAs_iff hpair (by decide) (by decide) (by decide) (by decide)).mp hlaw
    exact absurd htags (by decide)
  · intro hlaw
    have htags := (listEmpty_iff hone (by decide)).mp hlaw (by decide)
    exact absurd htags (by decide)

end Jeopardy.Hotring.Packed
