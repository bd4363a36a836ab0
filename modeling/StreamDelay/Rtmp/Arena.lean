import StreamDelay.Rtmp.Chunk

/-! # Arena blocks

Complete messages are copied into blocks that decoders share through a pool. A block goes from the pool to one
decoder, back to the pool when it is full, and is used again once no message in it is kept.

A block is known by its allocation. The pool is behind a lock, which `next_block` holds while it looks through
the retired blocks one by one; messages are dropped meanwhile by other threads.
-/

namespace StreamDelay.Rtmp

def ARENA_BLOCK : ℕ := 1024 * 1024
def ARENA_MAX_MESSAGE : ℕ := ARENA_BLOCK / 2

/-- Unused blocks kept for reuse. -/
def MAX_SPARE_BLOCKS : ℕ := 4

/-- With the pool at its limit, bytes of messages allocated one by one before it is asked again. -/
def RETRY_AFTER : ℕ := ARENA_BLOCK / 4

/-- The allocation a block is. -/
abbrev Block := ℕ

/-- `next_block` under way, the pool locked. -/
structure Scan where
  /-- The decoder that asks. -/
  asker : ℕ
  /-- The length of the message it has no room for. -/
  len : ℕ
  /-- Retired blocks not looked at yet. -/
  left : List Block
  reuse : Option Block
  spare : ℕ
deriving DecidableEq, Repr

structure Pool where
  /-- Full blocks, oldest first; of those being looked through, the ones kept so far. -/
  retired : List Block
  /-- Blocks decoders are filling. -/
  active : ℕ
  /-- Blocks allocated so far. -/
  allocated : ℕ
  maxBlocks : ℕ
  scan : Option Scan
deriving DecidableEq, Repr

namespace Pool

/-- A pool whose blocks in use hold at most about `maxBytes`. -/
def new (maxBytes : ℕ) : Pool := ⟨[], 0, 0, max (maxBytes / ARENA_BLOCK) 1, none⟩

/-- A decoder's own. -/
def unlimited : Pool := new USIZE_MAX

/-- The blocks the pool has: those retired, and those that `next_block` has yet to look at, or picked. -/
def blocks (p : Pool) : List Block :=
  p.retired ++ (p.scan.elim [] fun s => s.left ++ s.reuse.toList)

def giveBack (block : Block) (p : Pool) : Pool :=
  { p with active := p.active - 1, retired := p.retired ++ [block] }

/-- `next_block` starts: the full block is retired. -/
def beginScan (asker len : ℕ) (full : Option Block) (p : Pool) : Pool :=
  let p := full.elim p p.giveBack
  { p with retired := [], scan := some ⟨asker, len, p.retired, none, 0⟩ }

/-- It looks at one retired block, which it could reclaim or not. -/
def scanNext (reclaimed : Bool) (s : Scan) (b : Block) (left : List Block) (p : Pool) : Pool :=
  if !reclaimed then { p with retired := p.retired ++ [b], scan := some { s with left := left } }
  else if s.reuse = none then { p with scan := some { s with left := left, reuse := some b } }
  else if s.spare + 1 ≤ MAX_SPARE_BLOCKS then
    { p with retired := p.retired ++ [b], scan := some { s with left := left, spare := s.spare + 1 } }
  else { p with scan := some { s with left := left, spare := s.spare + 1 } }

/-- It has looked at all: the block it hands out, `fresh` where it allocates one. -/
def endScan (fresh : Block) (s : Scan) (p : Pool) : Pool × Option Block :=
  let p := { p with scan := none }
  match s.reuse with
  | some b => ({ p with active := p.active + 1 }, some b)
  | none =>
    if p.active + p.retired.length < p.maxBlocks then
      ({ p with active := p.active + 1, allocated := p.allocated + 1 }, some fresh)
    else (p, none)

end Pool

/-- What a decoder has to do with blocks. -/
structure DecoderArena where
  /-- The pool it asks. -/
  pool : ℕ
  /-- The block it fills, and the room left in it. -/
  arena : Option (Block × ℕ)
  retryAfter : ℕ
  /-- It waits for `next_block`. -/
  asking : Bool
  gone : Bool
deriving DecidableEq, Repr

namespace DecoderArena

def new (pool : ℕ) : DecoderArena := ⟨pool, none, 0, false, false⟩

/-- Past the limit, a message is allocated on its own. -/
def ownCopy (len : ℕ) (d : DecoderArena) : DecoderArena := { d with retryAfter := d.retryAfter - max len 1 }

/-- The block it holds. -/
def block (d : DecoderArena) : Option Block := d.arena.map Prod.fst

/-- It can do something of its own now. -/
def idle (d : DecoderArena) : Bool := !d.gone && !d.asking

end DecoderArena

/-- What happens to pools, decoders and messages, in any order. -/
inductive ArenaOp where
  | newPool (maxBytes : ℕ)
  /-- A decoder with a pool of its own. -/
  | newDecoder
  /-- A decoder has a complete message. -/
  | complete (d len : ℕ)
  /-- `next_block` looks at the next retired block of pool `p`. Nobody else using it, `free` tells whether
  `try_reclaim` succeeds. -/
  | scanNext (p : ℕ) (free : Bool)
  /-- It has looked at all. -/
  | scanEnd (p : ℕ)
  | setArenaPool (d p : ℕ)
  | dropDecoder (d : ℕ)
  /-- One more handle to what the `i`th refers to. -/
  | cloneMessage (i : ℕ)
  | dropMessage (i : ℕ)
deriving DecidableEq, Repr

/-- A block is handed to a decoder. -/
structure Handed where
  decoder : ℕ
  block : Block
deriving DecidableEq, Repr

/-- Pools and decoders, by number, and the messages kept. -/
structure Arenas where
  pools : List Pool
  decoders : List DecoderArena
  /-- The block of each handle to a message cut from one. -/
  live : List Block
  /-- The next allocation. -/
  fresh : Block
deriving DecidableEq, Repr

namespace Arenas

def new : Arenas := ⟨[], [], [], 0⟩

/-- A decoder with no room for a message: it allocates it on its own for a while after the pool was at its limit,
else asks the pool, once nobody else does. -/
def ask (d len : ℕ) (dec : DecoderArena) (w : Arenas) : Arenas :=
  if 0 < dec.retryAfter then { w with decoders := w.decoders.set d (dec.ownCopy len) }
  else
    match w.pools[dec.pool]? with
    | none => w
    | some pool =>
      if pool.scan.isSome then w
      else
        { w with
          pools := w.pools.set dec.pool (pool.beginScan d len dec.block)
          decoders := w.decoders.set d { dec with arena := none, asking := true } }

/-- A message of `len` bytes is complete: it is cut from the decoder's block if there is room. -/
def complete (d len : ℕ) (dec : DecoderArena) (w : Arenas) : Arenas :=
  if ARENA_MAX_MESSAGE < len then w
  else
    match dec.arena with
    | none => w.ask d len dec
    | some (b, room) =>
      if len ≤ room then
        { w with
          decoders := w.decoders.set d { dec with arena := some (b, room - len) }
          live := w.live ++ [b] }
      else w.ask d len dec

/-- A block just looked at is reclaimed if `free` says so, and no message refers to it. -/
def scanNext (p : ℕ) (free : Bool) (w : Arenas) : Arenas :=
  match w.pools[p]? with
  | none => w
  | some pool =>
    match pool.scan with
    | none => w
    | some s =>
      match s.left with
      | [] => w
      | b :: left => { w with pools := w.pools.set p (pool.scanNext (free && !w.live.contains b) s b left) }

/-- The decoder that asked gets its block, and cuts its message from it, or keeps to its own copies for a while. -/
def scanEnd (p : ℕ) (w : Arenas) : Arenas × List Handed :=
  match w.pools[p]? with
  | none => (w, [])
  | some pool =>
    match pool.scan with
    | none => (w, [])
    | some s =>
      match s.left, w.decoders[s.asker]? with
      | [], some dec =>
        match pool.endScan w.fresh s with
        | (pool, some b) =>
          ({ pools := w.pools.set p pool
             decoders := w.decoders.set s.asker
              { dec with arena := some (b, ARENA_BLOCK - s.len), asking := false }
             live := w.live ++ [b]
             fresh := w.fresh + 1 }, [⟨s.asker, b⟩])
        | (pool, none) =>
          ({ w with
             pools := w.pools.set p pool
             decoders := w.decoders.set s.asker
              ({ dec with retryAfter := RETRY_AFTER, asking := false }.ownCopy s.len) }, [])
      | _, _ => (w, [])

/-- A decoder gives its block back, once nobody else uses the pool; `after` says what it does then. -/
def giveBack (d : ℕ) (dec : DecoderArena) (after : DecoderArena → DecoderArena) (w : Arenas) : Arenas :=
  match dec.block with
  | none => { w with decoders := w.decoders.set d (after dec) }
  | some b =>
    match w.pools[dec.pool]? with
    | none => w
    | some pool =>
      if pool.scan.isSome then w
      else
        { w with
          pools := w.pools.set dec.pool (pool.giveBack b)
          decoders := w.decoders.set d (after { dec with arena := none }) }

/-- A decoder that is there and not waiting does something. -/
def onDecoder (d : ℕ) (act : DecoderArena → Arenas → Arenas) (w : Arenas) : Arenas :=
  match w.decoders[d]? with
  | some dec => if dec.idle then act dec w else w
  | none => w

def step (w : Arenas) : ArenaOp → Arenas × List Handed
  | .newPool maxBytes => ({ w with pools := w.pools ++ [.new maxBytes] }, [])
  | .newDecoder =>
    ({ w with pools := w.pools ++ [.unlimited], decoders := w.decoders ++ [.new w.pools.length] }, [])
  | .complete d len => (w.onDecoder d (complete d len), [])
  | .scanNext p free => (w.scanNext p free, [])
  | .scanEnd p => w.scanEnd p
  | .setArenaPool d p =>
    (if p < w.pools.length then
      w.onDecoder d fun dec => giveBack d dec fun dec => { dec with pool := p, retryAfter := 0 }
    else w, [])
  | .dropDecoder d => (w.onDecoder d fun dec => giveBack d dec fun dec => { dec with gone := true }, [])
  | .cloneMessage i => ({ w with live := w.live ++ w.live[i]?.toList }, [])
  | .dropMessage i => ({ w with live := w.live.eraseIdx i }, [])

end Arenas

end StreamDelay.Rtmp
