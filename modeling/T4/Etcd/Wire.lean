import T4.Lib.Text
import T4.Store.Machine

/-!
# The etcd wire format

Revisions on the wire are one above those of the store, so that an empty store does
not show revision 0. Keys under a reserved prefix belong to the server itself and
never leave it.
-/

namespace T4.Etcd

open Lib Bytes Text Mvcc

def toEtcdRevision (rev : Int) : Int := wrap (rev + 1)

/-- Wire revision 0 stands for an absent key and stays 0. -/
def fromEtcdRevision (rev : Int) : Int := if rev ≤ 0 then 0 else rev - 1

def internalPrefix : Bytes := 0 :: ascii "t4/"

def isInternalKey (key : Bytes) : Prop := internalPrefix <+: key

instance (key : Bytes) : Decidable (isInternalKey key) := inferInstanceAs (Decidable (_ <+: _))

/-- `mvccpb.KeyValue`. -/
structure WireKV where
  key : Bytes
  value : Bytes
  modRevision : Int
  createRevision : Int
  lease : Int
  version : Int
  deriving DecidableEq

def kvToProto (kv : KeyValue) : WireKV where
  key := kv.key
  value := kv.value
  modRevision := toEtcdRevision kv.revision
  createRevision := toEtcdRevision kv.createRevision
  lease := kv.lease
  version := if kv.version ≤ 0 then 1 else kv.version

/-- `mvccpb.Event`. -/
structure WireEvent where
  type : EventType
  kv : WireKV
  prevKv : Option WireKV
  deriving DecidableEq

def eventToProto (e : Event) : WireEvent where
  type := e.type
  kv := kvToProto e.kv
  prevKv := e.prevKV.map kvToProto

/-- An event that may leave the server. -/
def userEvent (e : Event) : Option Event := if isInternalKey e.kv.key then none else some e

end T4.Etcd
