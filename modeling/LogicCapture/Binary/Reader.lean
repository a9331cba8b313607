import LogicCapture.Binary.Chunk
import LogicCapture.Trace.Store

/-!
# Reading a binary capture

The octets of a capture are collected first and decoded together. A chunk is decoded, and all its
times are converted, before any of its events is stored; the events of the chunks before it stay
when a chunk cannot be decoded.
-/

namespace LogicCapture.Binary

open Trace (Store TrackKind)

structure Config where
  digitalTrack : String := "Saleae Digital"
  analogTrack : String := "Saleae Analog"
  deriving Repr, DecidableEq

/-- A capture under way: the octets so far, the header once it has been decoded, and the store that
the events go to. -/
structure Reader where
  config : Config := {}
  buffer : Array UInt8 := #[]
  header : Option Header := none
  store : Store := {}

def DataKind.trackKind : DataKind → TrackKind
  | .digital => .digitalCounter
  | .analog => .analogCounter

def Config.trackName (config : Config) : DataKind → String
  | .digital => config.digitalTrack
  | .analog => config.analogTrack

namespace Reader

def trackKey : String := "saleae"

/-- The store with the events of one chunk. Without events there is no track. -/
def addEvents (config : Config) (kind : DataKind) (store : Store) (events : List (Int × Float)) :
    Store :=
  if events.isEmpty then store
  else
    let (track, store) := store.internTrack kind.trackKind trackKey (config.trackName kind)
    events.foldl (fun store (ts, value) => store.addCounter { ts, value, track }) store

/-- Decode this many chunks and store their events, up to a chunk that cannot be decoded or has a
time that cannot be converted. -/
def readChunks (config : Config) (header : Header) (cursor : Cursor) (store : Store) :
    Nat → Option Failure × Store
  | 0 => (none, store)
  | n + 1 =>
    match Chunk.decode header.container.version header.dataKind cursor with
    | .error failure _ => (some failure, store)
    | .ok chunk cursor =>
      match chunk.events with
      | .error failure => (some failure, store)
      | .ok events =>
        readChunks config header cursor (addEvents config header.dataKind store events) n

def push (bytes : List UInt8) : EStateM Failure Reader Unit :=
  modify fun reader => { reader with buffer := reader.buffer ++ bytes }

def finish : EStateM Failure Reader Unit := fun reader =>
  if reader.buffer.isEmpty then .error .emptyBinary reader
  else
    match Header.decode { data := reader.buffer } with
    | .error failure _ => .error failure reader
    | .ok header cursor =>
      match readChunks reader.config header cursor reader.store header.chunkCount with
      | (none, store) => .ok () { reader with header := some header, store }
      | (some failure, store) => .error failure { reader with header := some header, store }

end Reader

end LogicCapture.Binary
