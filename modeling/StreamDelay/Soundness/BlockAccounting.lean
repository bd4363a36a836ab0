import Mathlib.Data.List.Perm.Subperm
import StreamDelay.Foundations.Machine
import StreamDelay.Foundations.Tally
import StreamDelay.Rtmp.Arena

/-! # Arena blocks are accounted for

However decoders, pools and messages interleave, a block is with one decoder or one pool, a pool counts the
decoders that hold one of its blocks, and a block that is handed out is in nobody else's hands.
-/

namespace StreamDelay.Rtmp

open Foundations

/-! ## Looking through the retired blocks -/

namespace Pool

variable {p : Pool} {s : Scan} {b : Block} {left : List Block}

@[simp] theorem blocks_idle (idle : p.scan = none) : p.blocks = p.retired := by
  rw [blocks, idle, Option.elim_none, List.append_nil]

private theorem blocks_scan (scan : p.scan = some s) : p.blocks = p.retired ++ (s.left ++ s.reuse.toList) := by
  rw [blocks, scan, Option.elim_some]

private theorem blocks_giveBack (idle : p.scan = none) (given : Block) :
    (p.giveBack given).blocks = p.blocks ++ [given] := by
  rw [blocks_idle idle, blocks_idle (p := p.giveBack given) idle, giveBack]

/-- Starting to look retires the full block, and picks nothing yet. -/
theorem beginScan_spec (idle : p.scan = none) (asker len : ℕ) (full : Option Block) :
    (∃ s, (p.beginScan asker len full).scan = some s ∧ s.asker = asker ∧ s.reuse = none) ∧
      (p.beginScan asker len full).active = p.active - full.isSome.toNat ∧
      (p.beginScan asker len full).maxBlocks = p.maxBlocks ∧
      (p.beginScan asker len full).blocks = p.blocks ++ full.toList := by
  rw [blocks_scan (p := p.beginScan asker len full) rfl, blocks_idle idle]
  cases full with
  | none => exact ⟨⟨_, rfl, rfl, rfl⟩, rfl, rfl, by simp [beginScan]⟩
  | some b => exact ⟨⟨_, rfl, rfl, rfl⟩, rfl, rfl, by simp [beginScan, giveBack]⟩

/-- A block looked at stays with the pool, or is freed. -/
theorem scanNext_spec (scan : p.scan = some s) (next : s.left = b :: left) (reclaimed : Bool) :
    ∃ s', (p.scanNext reclaimed s b left).scan = some s' ∧ s'.asker = s.asker ∧
      (s'.reuse = s.reuse ∨ reclaimed = true ∧ s'.reuse = some b) ∧
      (p.scanNext reclaimed s b left).active = p.active ∧
      (p.scanNext reclaimed s b left).maxBlocks = p.maxBlocks ∧
      (p.scanNext reclaimed s b left).blocks.Subperm p.blocks := by
  rw [blocks_scan scan, next]
  unfold scanNext
  split_ifs with kept first few
  · refine ⟨_, rfl, rfl, .inl rfl, rfl, rfl, ?_⟩
    rw [blocks_scan rfl, List.append_assoc]
    exact List.Subperm.refl _
  · refine ⟨_, rfl, rfl, .inr ⟨by simpa using kept, rfl⟩, rfl, rfl, ?_⟩
    rw [blocks_scan rfl, first]
    exact (List.Perm.append_left _ (by simp)).subperm
  · refine ⟨_, rfl, rfl, .inl rfl, rfl, rfl, ?_⟩
    rw [blocks_scan rfl, List.append_assoc]
    exact List.Subperm.refl _
  · refine ⟨_, rfl, rfl, .inl rfl, rfl, rfl, ?_⟩
    rw [blocks_scan rfl]
    exact (List.Sublist.append_left (List.sublist_cons_self ..) _).subperm

/-- The block handed out is the one picked, or a new one below the limit. -/
theorem endScan_spec (scan : p.scan = some s) (looked : s.left = []) (fresh : Block) :
    (p.endScan fresh s).1.scan = none ∧ (p.endScan fresh s).1.maxBlocks = p.maxBlocks ∧
      match (p.endScan fresh s).2 with
      | none => (p.endScan fresh s).1.active = p.active ∧ (p.endScan fresh s).1.blocks = p.blocks
      | some b => (p.endScan fresh s).1.active = p.active + 1 ∧
          (s.reuse = some b ∧ p.blocks = (p.endScan fresh s).1.blocks ++ [b] ∨
            b = fresh ∧ p.active + p.blocks.length < p.maxBlocks ∧ (p.endScan fresh s).1.blocks = p.blocks) := by
  rw [blocks_scan scan, looked, List.nil_append]
  unfold endScan
  cases picked : s.reuse with
  | some b => exact ⟨rfl, rfl, rfl, .inl ⟨rfl, by rw [blocks_idle rfl, Option.toList_some]⟩⟩
  | none =>
    simp only [Option.toList_none, List.append_nil]
    split_ifs with room
    · exact ⟨rfl, rfl, rfl, .inr ⟨rfl, room, blocks_idle rfl⟩⟩
    · exact ⟨rfl, rfl, rfl, blocks_idle rfl⟩

end Pool

/-! ## The invariant -/

namespace Arenas

variable {w : Arenas} {pool pool' : Pool} {dec dec' : DecoderArena} {p d : ℕ} {b : Block}

/-- The decoder holds a block of pool `p`. -/
def holds (p : ℕ) (d : DecoderArena) : Bool := d.pool = p && d.block.isSome

/-- How many decoders and pools have the block. -/
def owners (b : Block) (w : Arenas) : ℕ :=
  tally (fun d => d.block.toList.count b) w.decoders + tally (fun p => p.blocks.count b) w.pools

structure Accounted (w : Arenas) : Prop where
  active : ∀ (p : ℕ) (pool : Pool), w.pools[p]? = some pool → pool.active = w.decoders.countP (holds p)
  limit : ∀ (p : ℕ) (pool : Pool), w.pools[p]? = some pool → pool.active + pool.blocks.length ≤ pool.maxBlocks
  owned : ∀ b, w.owners b ≤ 1
  /-- Blocks still to be allocated are nowhere. -/
  unknown : ∀ b, w.fresh ≤ b → w.owners b = 0 ∧ b ∉ w.live
  homes : ∀ (d : ℕ) (dec : DecoderArena), w.decoders[d]? = some dec → dec.pool < w.pools.length
  /-- No message refers to the block that is to be handed out. -/
  picked : ∀ (p : ℕ) (pool : Pool) (s : Scan) (b : Block), w.pools[p]? = some pool → pool.scan = some s →
    s.reuse = some b → b ∉ w.live
  /-- Who asks a pool waits for it, without a block. -/
  askers : ∀ (p : ℕ) (pool : Pool) (s : Scan), w.pools[p]? = some pool → pool.scan = some s →
    ∃ dec, w.decoders[s.asker]? = some dec ∧ dec.pool = p ∧ dec.block = none ∧ dec.asking = true

private theorem accounted_new : Accounted new where
  active _ _ here := nomatch here
  limit _ _ here := nomatch here
  owned _ := Nat.zero_le _
  unknown _ _ := ⟨rfl, List.not_mem_nil⟩
  homes _ _ here := nomatch here
  picked _ _ _ _ here := nomatch here
  askers _ _ _ here := nomatch here

private theorem owners_decoder (here : w.decoders[d]? = some dec) (held : dec.block = some b) : 0 < w.owners b :=
  Nat.add_pos_left (tally_pos here (by rw [held]; simp)) _

/-- A block of a decoder is no pool's. -/
theorem not_both (one : w.owners b ≤ 1) (here : w.decoders[d]? = some dec) (held : dec.block = some b)
    (there : w.pools[p]? = some pool) : b ∉ pool.blocks := by
  intro member
  have decoder : 0 < tally (fun d => d.block.toList.count b) w.decoders := tally_pos here (by rw [held]; simp)
  have kept : 0 < tally (fun p => p.blocks.count b) w.pools := tally_pos there (List.count_pos_iff.mpr member)
  rw [owners] at one
  omega

/-- One decoder and its pool change, and with them who has which block. -/
structure Change (w : Arenas) (p d : ℕ) (pool pool' : Pool) (dec dec' : DecoderArena) (live : List Block)
    (fresh : Block) : Prop where
  inPools : w.pools[p]? = some pool
  inDecoders : w.decoders[d]? = some dec
  home : dec.pool = p
  stays : dec'.pool = p
  active : pool'.active + dec.block.isSome.toNat = pool.active + dec'.block.isSome.toNat
  limit : pool'.active + pool'.blocks.length ≤ pool'.maxBlocks
  /-- Blocks only change hands, but for a new one. -/
  owned : ∀ b, dec'.block.toList.count b + pool'.blocks.count b ≤ dec.block.toList.count b + pool.blocks.count b ∨
    b = w.fresh ∧ w.fresh < fresh ∧ dec'.block.toList.count b + pool'.blocks.count b ≤ 1
  later : w.fresh ≤ fresh
  /-- Messages are cut from the block the decoder holds. -/
  cut : ∀ b ∈ live, b ∈ w.live ∨ dec'.block = some b
  picked : ∀ s b, pool'.scan = some s → s.reuse = some b → b ∉ w.live
  askers : ∀ s, pool'.scan = some s → s.asker = d ∧ dec'.block = none ∧ dec'.asking = true ∨
    ∃ s', pool.scan = some s' ∧ s'.asker = s.asker ∧ s.asker ≠ d

/-- What the change makes of it all. -/
def changed (p d : ℕ) (pool' : Pool) (dec' : DecoderArena) (live : List Block) (fresh : Block)
    (w : Arenas) : Arenas :=
  ⟨w.pools.set p pool', w.decoders.set d dec', live, fresh⟩

namespace Change

variable {live : List Block} {fresh : Block}

private theorem owners_le (change : Change w p d pool pool' dec dec' live fresh) (b : Block) :
    (w.changed p d pool' dec' live fresh).owners b ≤ w.owners b ∨ b = w.fresh ∧ w.fresh < fresh ∧
      (w.changed p d pool' dec' live fresh).owners b ≤ w.owners b + 1 := by
  have decoders := tally_set (f := fun d => d.block.toList.count b) change.inDecoders dec'
  have pools := tally_set (f := fun p => p.blocks.count b) change.inPools pool'
  simp only [owners, changed]
  rcases change.owned b with fewer | ⟨new, some, one⟩
  · exact .inl (by omega)
  · exact .inr ⟨new, some, by omega⟩

private theorem at_decoder (change : Change w p d pool pool' dec dec' live fresh) :
    (w.changed p d pool' dec' live fresh).decoders[d]? = some dec' :=
  List.getElem?_set_self (List.getElem?_eq_some_iff.mp change.inDecoders).1

private theorem owned_changed (change : Change w p d pool pool' dec dec' live fresh) (before : Accounted w)
    (b : Block) :
    (w.changed p d pool' dec' live fresh).owners b ≤ 1 := by
  rcases change.owners_le b with fewer | ⟨rfl, -, more⟩
  · exact Nat.le_trans fewer (before.owned b)
  · have := (before.unknown _ Nat.le.refl).1
    omega

private theorem active_changed (change : Change w p d pool pool' dec dec' live fresh) (before : Accounted w)
    {other : Pool}
    {q : ℕ} (here : (w.changed p d pool' dec' live fresh).pools[q]? = some other) :
    other.active = (w.changed p d pool' dec' live fresh).decoders.countP (holds q) := by
  have holders := tally_set (f := fun d => (holds q d).toNat) change.inDecoders dec'
  rw [changed, countP_eq_tally]
  rcases getElem?_set_cases here with ⟨rfl, rfl⟩ | ⟨elsewhere, here⟩
  · have counted := before.active _ _ change.inPools
    rw [countP_eq_tally] at counted
    have active := change.active
    simp only [holds, change.home, change.stays, decide_true, Bool.true_and] at holders
    simp only [holds] at counted ⊢
    omega
  · rw [before.active _ _ here, countP_eq_tally]
    simp only [holds, change.home, change.stays, Ne.symm elsewhere, decide_false, Bool.false_and] at holders
    simp only [holds]
    omega

/-- The change keeps the accounts. -/
theorem accounted (change : Change w p d pool pool' dec dec' live fresh) (before : Accounted w) :
    Accounted (w.changed p d pool' dec' live fresh) where
  active _ _ := change.active_changed before
  limit q other here := by
    rcases getElem?_set_cases here with ⟨-, rfl⟩ | ⟨-, here⟩
    · exact change.limit
    · exact before.limit _ _ here
  owned := change.owned_changed before
  unknown b new := by
    obtain ⟨nobody, silent⟩ := before.unknown b (Nat.le_trans change.later new)
    have none : (w.changed p d pool' dec' live fresh).owners b = 0 := by
      rcases change.owners_le b with fewer | ⟨rfl, some, -⟩
      · omega
      · exact absurd new (Nat.not_le_of_lt some)
    refine ⟨none, fun member => ?_⟩
    rcases change.cut b member with already | held
    · exact silent already
    · exact (Nat.ne_of_gt (owners_decoder change.at_decoder held)) none
  homes e other here := by
    rw [changed, List.length_set]
    rcases getElem?_set_cases here with ⟨-, rfl⟩ | ⟨-, here⟩
    · rw [change.stays]
      exact (List.getElem?_eq_some_iff.mp change.inPools).1
    · exact before.homes _ _ here
  picked q other s b here scan picked member := by
    have inside : b ∈ other.blocks := by
      rw [Pool.blocks_scan scan, picked]
      simp
    rcases change.cut b member with already | held
    · rcases getElem?_set_cases here with ⟨-, rfl⟩ | ⟨-, here⟩
      · exact change.picked _ _ scan picked already
      · exact before.picked _ _ _ _ here scan picked already
    · exact not_both (change.owned_changed before b) change.at_decoder held here inside
  askers q other s here scan := by
    have kept (apart : s.asker ≠ d) : (w.changed p d pool' dec' live fresh).decoders[s.asker]? =
        w.decoders[s.asker]? := List.getElem?_set_ne (Ne.symm apart)
    rcases getElem?_set_cases here with ⟨rfl, rfl⟩ | ⟨elsewhere, here⟩
    · rcases change.askers s scan with ⟨asker, waits⟩ | ⟨old, scanned, same, apart⟩
      · exact ⟨dec', asker ▸ change.at_decoder, change.stays, waits⟩
      · rw [kept apart, ← same]
        exact before.askers _ _ _ change.inPools scanned
    · obtain ⟨asks, there, home, waits⟩ := before.askers _ _ _ here scan
      have apart : s.asker ≠ d := by
        rintro rfl
        rw [change.inDecoders] at there
        obtain rfl := Option.some.inj there
        exact elsewhere (home.symm.trans change.home)
      exact ⟨asks, (kept apart).trans there, home, waits⟩

end Change

/-! ## Every step keeps the accounts -/

/-- A decoder that is not waiting is not the one a pool works for. -/
theorem Accounted.not_asker (accounted : Accounted w) (here : w.decoders[d]? = some dec) (free : dec.asking = false)
    {s : Scan} (there : w.pools[p]? = some pool) (scan : pool.scan = some s) : s.asker ≠ d := by
  rintro rfl
  obtain ⟨asks, same, -, -, waits⟩ := accounted.askers _ _ _ there scan
  rw [here] at same
  obtain rfl := Option.some.inj same
  exact Bool.false_ne_true (free.symm.trans waits)

private theorem Accounted.home_pool (accounted : Accounted w) (here : w.decoders[d]? = some dec) :
    ∃ pool, w.pools[dec.pool]? = some pool :=
  ⟨_, List.getElem?_eq_getElem (accounted.homes _ _ here)⟩

/-- A decoder changes, and keeps the block it has. -/
theorem Accounted.same_block (accounted : Accounted w) (here : w.decoders[d]? = some dec) (free : dec.asking = false)
    (dec' : DecoderArena) (stays : dec'.pool = dec.pool) (same : dec'.block = dec.block) {live : List Block}
    (cut : ∀ b ∈ live, b ∈ w.live ∨ dec.block = some b) :
    Accounted { w with decoders := w.decoders.set d dec', live := live } := by
  obtain ⟨pool, there⟩ := accounted.home_pool here
  have change : Change w dec.pool d pool pool dec dec' live w.fresh :=
    { inPools := there
      inDecoders := here
      home := rfl
      stays := stays
      active := by rw [same]
      limit := accounted.limit _ _ there
      owned := fun b => .inl (by rw [same])
      later := Nat.le.refl
      cut := fun b member => by rw [same]; exact cut b member
      picked := fun s b => accounted.picked _ _ s b there
      askers := fun s scan => .inr ⟨s, scan, rfl, accounted.not_asker here free there scan⟩ }
  have after := change.accounted accounted
  rwa [changed, set_of_getElem? there] at after

/-- A pool counts a decoder that has one of its blocks. -/
theorem Accounted.active_pos (accounted : Accounted w) (here : w.decoders[d]? = some dec)
    (there : w.pools[dec.pool]? = some pool) : dec.block.isSome.toNat ≤ pool.active := by
  rw [accounted.active _ _ there, countP_eq_tally]
  have part := le_tally (f := fun d => (holds dec.pool d).toNat) here
  simpa only [holds, decide_true, Bool.true_and] using part

theorem Accounted.ask (accounted : Accounted w) (here : w.decoders[d]? = some dec) (free : dec.asking = false)
    (len : ℕ) : Accounted (w.ask d len dec) := by
  unfold Arenas.ask
  split_ifs with later
  · exact accounted.same_block here free (dec.ownCopy len) rfl rfl fun b => .inl
  obtain ⟨pool, there⟩ := accounted.home_pool here
  rw [there]
  dsimp only
  split_ifs with busy
  · exact accounted
  obtain ⟨⟨s, scan, asker, reuse⟩, active, most, blocks⟩ :=
    Pool.beginScan_spec (by simpa using busy) d len dec.block
  have limit := accounted.limit _ _ there
  have counted := accounted.active_pos here there
  have change : Change w dec.pool d pool (pool.beginScan d len dec.block) dec { dec with arena := none, asking := true }
      w.live w.fresh :=
    { inPools := there
      inDecoders := here
      home := rfl
      stays := rfl
      active := by
        rw [active]
        exact Nat.sub_add_cancel counted
      limit := by
        have one : dec.block.toList.length = dec.block.isSome.toNat := by cases dec.block <;> rfl
        rw [active, most, blocks, List.length_append, one]
        omega
      owned := fun b => .inl (by
        rw [blocks, List.count_append, DecoderArena.block, Option.map_none, Option.toList_none, List.count_nil]
        omega)
      later := Nat.le.refl
      cut := fun b => .inl
      picked := fun s' b scan' picked => by
        rw [scan] at scan'
        obtain rfl := Option.some.inj scan'
        exact absurd (reuse.symm.trans picked) nofun
      askers := fun s' scan' => by
        rw [scan] at scan'
        obtain rfl := Option.some.inj scan'
        exact .inl ⟨asker, rfl, rfl⟩ }
  exact change.accounted accounted

theorem Accounted.complete (accounted : Accounted w) (here : w.decoders[d]? = some dec) (free : dec.asking = false)
    (len : ℕ) : Accounted (w.complete d len dec) := by
  unfold Arenas.complete
  split_ifs with large
  · exact accounted
  split
  · exact accounted.ask here free len
  · next b room held =>
    have block : dec.block = some b := by rw [DecoderArena.block, held, Option.map_some]
    split_ifs with fits
    · refine accounted.same_block here free { dec with arena := some (b, room - len) } rfl block.symm
        fun a member => ?_
      rcases List.mem_append.mp member with old | new
      · exact .inl old
      · exact .inr (block.trans (congrArg some (List.mem_singleton.mp new).symm))
    · exact accounted.ask here free len

theorem Accounted.scanNext (accounted : Accounted w) (p : ℕ) (free : Bool) : Accounted (w.scanNext p free) := by
  unfold Arenas.scanNext
  split
  · exact accounted
  next pool there =>
  split
  · exact accounted
  next s scan =>
  split
  · exact accounted
  next b left next =>
  obtain ⟨asks, here, home, none, waits⟩ := accounted.askers _ _ _ there scan
  obtain ⟨s', scanned, asker, reuse, active, most, blocks⟩ :=
    Pool.scanNext_spec scan next (free && !w.live.contains b)
  have limit := accounted.limit _ _ there
  have length := blocks.length_le
  have change : Change w p s.asker pool (pool.scanNext (free && !w.live.contains b) s b left) asks asks
      w.live w.fresh :=
    { inPools := there
      inDecoders := here
      home := home
      stays := home
      active := by rw [active]
      limit := by
        rw [active, most]
        omega
      owned := fun b => .inl (Nat.add_le_add_left (blocks.count_le b) _)
      later := Nat.le.refl
      cut := fun b => .inl
      picked := fun s'' b' scan' picked => by
        rw [scanned] at scan'
        obtain rfl := Option.some.inj scan'
        rcases reuse with same | ⟨reclaimed, new⟩
        · exact accounted.picked _ _ _ _ there scan (same.symm.trans picked)
        · obtain rfl := Option.some.inj (new.symm.trans picked)
          simp only [Bool.and_eq_true, Bool.not_eq_true', List.contains_eq_mem, decide_eq_false_iff_not] at reclaimed
          exact reclaimed.2
      askers := fun s'' scan' => by
        rw [scanned] at scan'
        obtain rfl := Option.some.inj scan'
        exact .inl ⟨asker, none, waits⟩ }
  have after := change.accounted accounted
  rwa [changed, set_of_getElem? here] at after

theorem Accounted.scanEnd (accounted : Accounted w) (p : ℕ) : Accounted (w.scanEnd p).1 := by
  unfold Arenas.scanEnd
  split
  · exact accounted
  next pool there =>
  split
  · exact accounted
  next s scan =>
  split
  · next dec looked here =>
    obtain ⟨asks, here', home, none, -⟩ := accounted.askers _ _ _ there scan
    obtain rfl : dec = asks := Option.some.inj (here.symm.trans here')
    have limit := accounted.limit _ _ there
    obtain ⟨ended, most, spec⟩ := Pool.endScan_spec scan looked w.fresh
    split
    · next pool' b result =>
      simp only [result] at ended most spec
      obtain ⟨active, handed⟩ := spec
      have change : Change w p s.asker pool pool' dec
          { dec with arena := some (b, ARENA_BLOCK - s.len), asking := false } (w.live ++ [b]) (w.fresh + 1) :=
        { inPools := there
          inDecoders := here
          home := home
          stays := home
          active := by
            rw [active, none]
            rfl
          limit := by
            rw [active, most]
            rcases handed with ⟨-, blocks⟩ | ⟨-, room, blocks⟩
            · have length := congrArg List.length blocks
              rw [List.length_append, List.length_singleton] at length
              omega
            · rw [blocks]
              omega
          owned := fun a => by
            have block : DecoderArena.block { dec with arena := some (b, ARENA_BLOCK - s.len), asking := false } =
                some b := rfl
            rw [block, Option.toList_some, none, Option.toList_none, List.count_nil]
            rcases handed with ⟨-, blocks⟩ | ⟨rfl, room, blocks⟩
            · have count := congrArg (List.count a) blocks
              rw [List.count_append] at count
              exact .inl (by omega)
            · by_cases same : a = w.fresh
              · have nowhere := (accounted.unknown a (Nat.le_of_eq same.symm)).1
                have kept : pool.blocks.count a ≤ tally (fun p => p.blocks.count a) w.pools :=
                  le_tally (f := fun p : Pool => p.blocks.count a) there
                rw [owners] at nowhere
                rw [blocks, ← same, List.count_singleton_self]
                exact .inr ⟨rfl, Nat.lt_succ_self _, by omega⟩
              · rw [List.count_singleton, if_neg (by simpa using Ne.symm same), blocks]
                exact .inl Nat.le.refl
          later := Nat.le_succ _
          cut := fun a member => by
            rcases List.mem_append.mp member with old | new
            · exact .inl old
            · exact .inr (congrArg some (List.mem_singleton.mp new).symm)
          picked := fun s' b' scan' => by rw [ended] at scan'; contradiction
          askers := fun s' scan' => by rw [ended] at scan'; contradiction }
      exact change.accounted accounted
    · next pool' result =>
      simp only [result] at ended most spec
      obtain ⟨active, blocks⟩ := spec
      have change : Change w p s.asker pool pool' dec
          ({ dec with retryAfter := RETRY_AFTER, asking := false }.ownCopy s.len) w.live w.fresh :=
        { inPools := there
          inDecoders := here
          home := home
          stays := home
          active := by
            rw [active]
            rfl
          limit := by rwa [active, most, blocks]
          owned := fun a => .inl (by rw [blocks]; exact Nat.le.refl)
          later := Nat.le.refl
          cut := fun a => .inl
          picked := fun s' b' scan' => by rw [ended] at scan'; contradiction
          askers := fun s' scan' => by rw [ended] at scan'; contradiction }
      exact change.accounted accounted
  · exact accounted

/-- A decoder without a block goes to another pool, or away. -/
theorem Accounted.without_block (accounted : Accounted w) (here : w.decoders[d]? = some dec)
    (free : dec.asking = false) (empty : dec.block = none) (dec' : DecoderArena) (empty' : dec'.block = none)
    (home : dec'.pool < w.pools.length) : Accounted { w with decoders := w.decoders.set d dec' } := by
  have holds_none {e : DecoderArena} (empty : e.block = none) (q) : holds q e = false := by
    rw [holds, empty, Option.isSome_none, Bool.and_false]
  have owners (b) : Arenas.owners b { w with decoders := w.decoders.set d dec' } = w.owners b := by
    have same := tally_set (f := fun d => d.block.toList.count b) here dec'
    simp only [empty, empty', Option.toList_none, List.count_nil] at same
    exact congrArg (· + _) (Nat.add_right_cancel same)
  refine ⟨fun q other there => ?_, accounted.limit, fun b => (owners b).symm ▸ accounted.owned b,
    fun b new => ⟨(owners b).trans (accounted.unknown b new).1, (accounted.unknown b new).2⟩,
    fun e other here => ?_,
    accounted.picked, fun q other s there scan => ?_⟩
  · have same := tally_set (f := fun d => (holds q d).toNat) here dec'
    rw [holds_none empty, holds_none empty'] at same
    rw [accounted.active _ _ there, countP_eq_tally, countP_eq_tally]
    exact (Nat.add_right_cancel same).symm
  · rcases getElem?_set_cases here with
      ⟨-, rfl⟩ | ⟨-, here⟩
    · exact home
    · exact accounted.homes _ _ here
  · obtain ⟨asks, there', waits⟩ := accounted.askers _ _ _ there scan
    have apart := accounted.not_asker here free there scan
    exact ⟨asks, (List.getElem?_set_ne (Ne.symm apart)).trans there', waits⟩

/-- A decoder gives its block back, then goes to another pool, or away. -/
theorem Accounted.giveBack (accounted : Accounted w) (here : w.decoders[d]? = some dec) (free : dec.asking = false)
    (after : DecoderArena → DecoderArena) (keeps : ∀ dec, (after dec).block = dec.block)
    (home : ∀ dec, dec.pool < w.pools.length → (after dec).pool < w.pools.length) :
    Accounted (w.giveBack d dec after) := by
  unfold Arenas.giveBack
  split
  · next none =>
    exact accounted.without_block here free none _ ((keeps dec).trans none) (home dec (accounted.homes _ _ here))
  · next b held =>
    obtain ⟨pool, there⟩ := accounted.home_pool here
    rw [there]
    dsimp only
    split_ifs with busy
    · exact accounted
    have idle : pool.scan = none := by simpa using busy
    have blocks := Pool.blocks_giveBack idle b
    have counted := accounted.active_pos here there
    have limit := accounted.limit _ _ there
    rw [held] at counted
    have change : Change w dec.pool d pool (pool.giveBack b) dec { dec with arena := none } w.live w.fresh :=
      { inPools := there
        inDecoders := here
        home := rfl
        stays := rfl
        active := by
          rw [held]
          exact Nat.sub_add_cancel counted
        limit := by
          rw [blocks, List.length_append, List.length_singleton]
          simp only [Pool.giveBack, Option.isSome_some, Bool.toNat_true] at counted ⊢
          omega
        owned := fun a => .inl (by
          rw [blocks, held, List.count_append, DecoderArena.block, Option.map_none, Option.toList_none,
            Option.toList_some, List.count_nil]
          omega)
        later := Nat.le.refl
        cut := fun a => .inl
        picked := fun s b scan => by rw [Pool.giveBack, idle] at scan; contradiction
        askers := fun s scan => by rw [Pool.giveBack, idle] at scan; contradiction }
    have given := (change.accounted accounted).without_block
      change.at_decoder free rfl (after { dec with arena := none }) (keeps _) (by
        rw [changed, List.length_set]
        exact home { dec with arena := none } (show dec.pool < _ from accounted.homes _ _ here))
    rwa [changed, List.set_set] at given

theorem Accounted.onDecoder (accounted : Accounted w) (d : ℕ) {act : DecoderArena → Arenas → Arenas}
    (keeps : ∀ dec, w.decoders[d]? = some dec → dec.asking = false → Accounted (act dec w)) :
    Accounted (w.onDecoder d act) := by
  unfold Arenas.onDecoder
  split
  · next dec here =>
    split_ifs with idle
    · refine keeps dec here ?_
      simp only [DecoderArena.idle, Bool.and_eq_true, Bool.not_eq_true'] at idle
      exact idle.2
    · exact accounted
  · exact accounted

/-- Messages kept come and go. -/
theorem Accounted.messages (accounted : Accounted w) {live : List Block} (known : ∀ b ∈ live, b ∈ w.live) :
    Accounted { w with live := live } where
  active := accounted.active
  limit := accounted.limit
  owned := accounted.owned
  unknown b new := ⟨(accounted.unknown b new).1, fun member => (accounted.unknown b new).2 (known b member)⟩
  homes := accounted.homes
  picked p pool s b there scan picked member := accounted.picked p pool s b there scan picked (known b member)
  askers := accounted.askers

/-- A new pool has no blocks, and a new decoder none either. -/
theorem Accounted.more (accounted : Accounted w) (maxBytes : ℕ) (newcomers : List DecoderArena)
    (fresh : ∀ dec ∈ newcomers, dec.block = none ∧ dec.pool = w.pools.length) :
    Accounted { w with pools := w.pools ++ [.new maxBytes], decoders := w.decoders ++ newcomers } := by
  have nobody (b) : tally (fun d => d.block.toList.count b) newcomers = 0 := by
    refine tally_eq_zero fun dec member => ?_
    rw [(fresh dec member).1, Option.toList_none, List.count_nil]
  have held (q) : newcomers.countP (holds q) = 0 := by
    refine List.countP_eq_zero.mpr fun dec member => ?_
    rw [holds, (fresh dec member).1, Option.isSome_none, Bool.and_false]
    exact Bool.false_ne_true
  have owners (b) : Arenas.owners b
      { w with pools := w.pools ++ [.new maxBytes], decoders := w.decoders ++ newcomers } = w.owners b := by
    rw [Arenas.owners, tally_append, tally_append, nobody]
    rfl
  have pools {q other} (there : (w.pools ++ [Pool.new maxBytes])[q]? = some other) :
      w.pools[q]? = some other ∨ q = w.pools.length ∧ other = .new maxBytes := by
    rcases Nat.lt_or_ge q w.pools.length with old | new
    · rw [List.getElem?_append_left old] at there
      exact .inl there
    · rw [List.getElem?_append_right new] at there
      obtain ⟨last, rfl⟩ := List.getElem?_eq_some_iff.mp there
      rw [List.length_singleton] at last
      exact .inr ⟨by omega, List.getElem_singleton _⟩
  have unheld : w.decoders.countP (holds w.pools.length) = 0 := by
    refine List.countP_eq_zero.mpr fun dec member => ?_
    obtain ⟨d, here⟩ := List.mem_iff_getElem?.mp member
    have home := accounted.homes _ _ here
    simp only [holds, Bool.and_eq_true, decide_eq_true_eq, not_and]
    omega
  refine ⟨fun q other there => ?_, fun q other there => ?_, fun b => (owners b).symm ▸ accounted.owned b,
    fun b new => ⟨(owners b).trans (accounted.unknown b new).1, (accounted.unknown b new).2⟩,
    fun e other here => ?_,
    fun q other s b there scan => ?_, fun q other s there scan => ?_⟩
  · rw [List.countP_append, held, Nat.add_zero]
    rcases pools there with old | ⟨rfl, rfl⟩
    · exact accounted.active _ _ old
    · exact unheld.symm
  · rcases pools there with old | ⟨rfl, rfl⟩
    · exact accounted.limit _ _ old
    · exact Nat.zero_le _
  · rw [List.length_append, List.length_singleton]
    rcases List.mem_append.mp (List.mem_of_getElem? here) with old | new
    · obtain ⟨d, here⟩ := List.mem_iff_getElem?.mp old
      have home := accounted.homes _ _ here
      omega
    · have home := (fresh other new).2
      omega
  · rcases pools there with old | ⟨rfl, rfl⟩
    · exact accounted.picked _ _ _ _ old scan
    · contradiction
  · rcases pools there with old | ⟨rfl, rfl⟩
    · obtain ⟨asks, here, waits⟩ := accounted.askers _ _ _ old scan
      exact ⟨asks, (List.getElem?_append_left (List.getElem?_eq_some_iff.mp here).1).trans here, waits⟩
    · contradiction

theorem Accounted.step (accounted : Accounted w) (op : ArenaOp) : Accounted (w.step op).1 := by
  cases op with
  | newPool maxBytes =>
    have more := accounted.more maxBytes [] nofun
    rwa [List.append_nil] at more
  | newDecoder =>
    refine accounted.more USIZE_MAX [.new w.pools.length] fun dec member => ?_
    obtain rfl := List.mem_singleton.mp member
    exact ⟨rfl, rfl⟩
  | complete d len => exact accounted.onDecoder d fun dec here free => accounted.complete here free len
  | scanNext p free => exact accounted.scanNext p free
  | scanEnd p => exact accounted.scanEnd p
  | setArenaPool d p =>
    rw [Arenas.step]
    split_ifs with there
    · exact accounted.onDecoder d fun dec here free =>
        accounted.giveBack here free (fun dec => { dec with pool := p, retryAfter := 0 }) (fun _ => rfl)
          fun _ _ => there
    · exact accounted
  | dropDecoder d =>
    exact accounted.onDecoder d fun dec here free =>
      accounted.giveBack here free (fun dec => { dec with gone := true }) (fun _ => rfl) fun _ home => home
  | cloneMessage i =>
    refine accounted.messages fun b member => ?_
    rcases List.mem_append.mp member with old | copy
    · exact old
    · exact List.mem_of_getElem? (Option.mem_toList.mp copy)
  | dropMessage i => exact accounted.messages fun b member => List.mem_of_mem_eraseIdx member

private theorem accounted_after (ops : List ArenaOp) : Accounted (Machine.after step new ops) :=
  Machine.after_induct step (fun _ op accounted => accounted.step op) accounted_new ops

/-! ## What is handed out -/

/-- A block is handed to the decoder that asked, and nobody has it or refers to it then. -/
theorem Accounted.handed (accounted : Accounted w) {op : ArenaOp} {e : Handed} (emitted : e ∈ (w.step op).2) :
    e.block ∉ w.live ∧
      (∀ (d : ℕ) (dec : DecoderArena), w.decoders[d]? = some dec → dec.block ≠ some e.block) ∧
      ∀ (d : ℕ) (dec : DecoderArena), (w.step op).1.decoders[d]? = some dec → dec.block = some e.block →
        d = e.decoder := by
  cases op with
  | scanEnd p =>
    revert emitted
    rw [Arenas.step, Arenas.scanEnd]
    split
    · exact nofun
    next pool there =>
    split
    · exact nofun
    next s scan =>
    split
    · next dec looked here =>
      have spec := (Pool.endScan_spec scan looked w.fresh).2.2
      split
      · next pool' b result =>
        intro emitted
        obtain rfl := List.mem_singleton.mp emitted
        simp only [result] at spec
        have free : b ∉ w.live ∧
            ∀ (d : ℕ) (dec : DecoderArena), w.decoders[d]? = some dec → dec.block ≠ some b := by
          rcases spec.2 with ⟨picked, blocks⟩ | ⟨rfl, -, -⟩
          · have inside : b ∈ pool.blocks := by
              rw [blocks]
              exact List.mem_append_right _ (List.mem_singleton_self b)
            exact ⟨accounted.picked _ _ _ _ there scan picked,
              fun d dec here held => not_both (accounted.owned b) here held there inside⟩
          · obtain ⟨nobody, silent⟩ := accounted.unknown _ Nat.le.refl
            exact ⟨silent, fun d dec here held => Nat.ne_of_gt (owners_decoder here held) nobody⟩
        refine ⟨free.1, free.2, fun d other here held => ?_⟩
        by_contra apart
        exact free.2 d other ((List.getElem?_set_ne (Ne.symm apart)).symm.trans here) held
      · exact nofun
    · exact nofun
  | _ => exact absurd emitted List.not_mem_nil

/-- However many decoders share pools, and whatever becomes of their messages: active and retired blocks stay within
the limit, a pool counts as active the decoders that hold one of its blocks, so that it counts whichever gives one
back, and a block handed to a decoder is referred to by no message and held by no other. -/
theorem arena_accounting (ops : List ArenaOp) :
    let w := Machine.after step new ops
    (∀ (p : ℕ) (pool : Pool), w.pools[p]? = some pool →
      pool.active + pool.blocks.length ≤ pool.maxBlocks ∧
      pool.active = w.decoders.countP fun dec => dec.pool = p && dec.block.isSome) ∧
    (∀ (d : ℕ) (dec : DecoderArena), w.decoders[d]? = some dec → dec.block.isSome →
      ∃ pool, w.pools[dec.pool]? = some pool ∧ 0 < pool.active) ∧
    ∀ op, ∀ e ∈ (w.step op).2, e.block ∉ w.live ∧
      (∀ (d : ℕ) (dec : DecoderArena), w.decoders[d]? = some dec → dec.block ≠ some e.block) ∧
      ∀ (d : ℕ) (dec : DecoderArena), (w.step op).1.decoders[d]? = some dec → dec.block = some e.block →
        d = e.decoder := by
  have accounted := accounted_after ops
  refine ⟨fun p pool there => ⟨accounted.limit p pool there, accounted.active p pool there⟩,
    fun d dec here holding => ?_, fun op e emitted => accounted.handed emitted⟩
  obtain ⟨pool, there⟩ := accounted.home_pool here
  have counted := accounted.active_pos here there
  rw [holding, Bool.toNat_true] at counted
  exact ⟨pool, there, counted⟩

/-- Two decoders on a pool of one block: the second gets it once the first has gone and its message is dropped. -/
example :
    Machine.outputs step new
      [.newPool 0, .newDecoder, .newDecoder, .setArenaPool 0 0, .setArenaPool 1 0, .complete 0 100, .scanEnd 0,
        .complete 1 200, .scanEnd 0, .complete 1 (ARENA_BLOCK / 4), .dropDecoder 0, .dropMessage 0, .complete 1 200,
        .scanNext 0 true, .scanEnd 0] = [⟨0, 0⟩, ⟨1, 0⟩] := by
  decide +kernel

end Arenas

end StreamDelay.Rtmp
