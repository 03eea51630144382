import IpSpace.Proofs.Machine.Listing
import IpSpace.Proofs.Machine.Range

/-!
# No operation has a fault

`Operation` has the operations of the library that compute with numbers or look up positions, each with what it may be
given: lengths and masks are any bytes, counts any words, lists of bytes of any length, and blocks and iterators any that
there are. `run` computes with checked operations throughout and `answer` as the library does. `runs_without_fault` says
that the two agree, so no sum, difference, product, shift, narrowing or position on the way is out of range.

Left out are the operations that have none of these: they read a field, compare, or give the address next to one, which is
a sum or a difference with one.
-/
namespace IpSpace

/-- An operation and what it is given, by the type of what it results in. -/
inductive Operation : Type → Type where
  -- bytes
  | clearAfter {f : Family} (a : Address f) (n : UInt8) : Operation (Address f)
  | setAfter {f : Family} (a : Address f) (n : UInt8) : Operation (Address f)
  | setOctet {f : Family} (a : Address f) (index : UInt64) (value : UInt8) : Operation (Except Error (Address f))
  | addTo {f : Family} (a : Address f) (count : BitVec f.bits) : Operation (Option (Address f))
  | subFrom {f : Family} (a : Address f) (count : BitVec f.bits) : Operation (Option (Address f))
  | digitAdd (mask value : UInt8) (count : BitVec Word.bits) : Operation (Option (Nat × UInt8))
  | digitSub (mask value : UInt8) (count : BitVec Word.bits) : Operation (Option (Nat × UInt8))
  | bytesAdd (bytes : List UInt8) (count : BitVec Word.bits) : Operation (Option (List UInt8))
  | bytesSub (bytes : List UInt8) (count : BitVec Word.bits) : Operation (Option (List UInt8))
  -- host masks
  | newMask (f : Family) (length : UInt8) : Operation (Except Error (List UInt8))
  | maskSize {f : Family} (m : HostMask f) : Operation Nat
  | boundary {f : Family} (m : HostMask f) : Operation (Option (Boundary f))
  | largest {f : Family} (b : Boundary f) : Operation UInt8
  | permits {f : Family} (m : HostMask f) (a : Address f) : Operation Bool
  | step {f : Family} (d : Direction) (m : HostMask f) (a : Address f) : Operation (Except Error (Address f))
  | jumpUp {f : Family} (m : HostMask f) (a : Address f) (count : BitVec Word.bits) :
      Operation (Except Error (Address f))
  | jumpDown {f : Family} (m : HostMask f) (a : Address f) (count : BitVec Word.bits) :
      Operation (Except Error (Address f))
  -- blocks
  | masked {f : Family} (a : Address f) (prefixLength maskLength : UInt8) :
      Operation (Except Error (Machine.Layout f))
  | containing {f : Family} (a : Address f) (prefixLength : UInt8) : Operation (Except Error (Machine.Layout f))
  | moved {f : Family} (b : Block f) (a : Address f) (prefixLength : UInt8) :
      Operation (Except Error (Machine.Layout f))
  | netmask {f : Family} (b : Block f) : Operation (Address f)
  | wildcard {f : Family} (b : Block f) : Operation (Address f)
  | broadcast {f : Family} (b : Block f) : Operation (Address f)
  | first {f : Family} (b : Block f) : Operation (Address f)
  | last {f : Family} (b : Block f) : Operation (Address f)
  | count {f : Family} (b : Block f) : Operation Nat
  | contains {f : Family} (b : Block f) (a : Address f) : Operation Bool
  | controls {f : Family} (b : Block f) (a : Address f) : Operation Bool
  | encloses {f : Family} (b c : Block f) : Operation Bool
  | containsAny (b : AnyBlock) (a : AnyAddress) : Operation Bool
  | enclosesAny (b c : AnyBlock) : Operation Bool
  | next {f : Family} (b : Block f) (a : Address f) : Operation (Except Error (Step f))
  | previous {f : Family} (b : Block f) (a : Address f) : Operation (Except Error (Step f))
  | supernet {f : Family} (b : Block f) (prefixLength : UInt8) : Operation (Except Error (Machine.Layout f))
  | nextBlock {f : Family} (b : Block f) (prefixLength : UInt8) : Operation (Except Error (Machine.Layout f))
  | previousBlock {f : Family} (b : Block f) (prefixLength : UInt8) : Operation (Except Error (Machine.Layout f))
  -- iterators
  | list {f : Family} (b : Block f) (offset size : BitVec f.bits) : Operation (Machine.Cursor f)
  | pop {f : Family} (l : Listing f) (h : l.Reachable) : Operation (Option (Address f) × Machine.Cursor f)
  | sizeHint {f : Family} (l : Listing f) (h : l.Reachable) : Operation (Nat × Option Nat)
  | subnets {f : Family} (b : Block f) (prefixLength : UInt8) : Operation (Except Error (Machine.Row f))
  | popBlock {f : Family} (s : Subnets f) : Operation (Option (Machine.Layout f) × Machine.Row f)
  -- ranges
  | findBetween (first last : AnyAddress) : Operation (Except Error (Machine.AnyLayout × Bool))
  | coverRange (first last : AnyAddress) : Operation (Except Error (List Machine.AnyLayout))

namespace Operation

/-- The operation with every step checked. -/
def run : {α : Type} → Operation α → Checked α
  | _, clearAfter a n => Machine.clearAfter a n.toNat
  | _, setAfter a n => Machine.setAfter a n.toNat
  | _, setOctet a index value => (Machine.setOctet a index.toNat value).run
  | _, addTo a n => return Machine.addTo a n.toNat
  | _, subFrom a n => return Machine.subFrom a n.toNat
  | _, digitAdd mask value n => Machine.digitAdd mask value n.toNat
  | _, digitSub mask value n => Machine.digitSub mask value n.toNat
  | _, bytesAdd bytes n => Machine.bytesAdd bytes n.toNat
  | _, bytesSub bytes n => Machine.bytesSub bytes n.toNat
  | _, newMask f length => (Machine.newMask f length.toNat).run
  | _, maskSize m => Machine.maskSize m.octets
  | _, @boundary f m => Machine.boundary? f m.octets
  | _, largest b => Machine.largest b
  | _, permits m a => Machine.permits m.octets a
  | _, step d m a => (Machine.step d m.octets a).run
  | _, jumpUp m a n => (Machine.jumpUp m.octets a n.toNat).run
  | _, jumpDown m a n => (Machine.jumpDown m.octets a n.toNat).run
  | _, masked a n k => (Machine.masked a n.toNat k.toNat).run
  | _, containing a n => (Machine.containing a n.toNat).run
  | _, moved b a n => (Machine.moved b.layout a n.toNat).run
  | _, netmask b => Machine.netmask b.layout
  | _, wildcard b => Machine.wildcard b.layout
  | _, broadcast b => Machine.broadcast b.layout
  | _, first b => Machine.first b.layout
  | _, last b => Machine.last b.layout
  | _, count b => Machine.count b.layout
  | _, contains b a => Machine.contains b.layout a
  | _, controls b a => Machine.controls b.layout a
  | _, encloses b c => Machine.encloses b.layout c.layout
  | _, containsAny b a => Machine.containsAny b.layout a
  | _, enclosesAny b c => Machine.enclosesAny b.layout c.layout
  | _, next b a => (Machine.next b.layout a).run
  | _, previous b a => (Machine.previous b.layout a).run
  | _, supernet b n => (Machine.supernet b.layout n.toNat).run
  | _, nextBlock b n => (Machine.nextBlock b.layout n.toNat).run
  | _, previousBlock b n => (Machine.previousBlock b.layout n.toNat).run
  | _, list b offset size => Machine.list b.layout offset.toNat size.toNat
  | _, pop l _ => Machine.pop l.cursor
  | _, sizeHint l _ => Machine.sizeHint l.cursor
  | _, subnets b n => (Machine.subnets b.layout n.toNat).run
  | _, popBlock s => Machine.popBlock s.row
  | _, findBetween a c => (Machine.findBetween a c).run
  | _, coverRange a c => (Machine.coverRange a c).run

/-- What the library answers. -/
def answer : {α : Type} → Operation α → α
  | _, clearAfter a n => a.clearAfter n.toNat
  | _, setAfter a n => a.setAfter n.toNat
  | _, setOctet a index value => a.setOctet index.toNat value
  | _, addTo a n => a.add? n.toNat
  | _, subFrom a n => a.sub? n.toNat
  | _, digitAdd mask value n => MaskedByte.add? mask value n.toNat
  | _, digitSub mask value n => MaskedByte.sub? mask value n.toNat
  | _, bytesAdd bytes n => BigEndian.add? bytes n.toNat
  | _, bytesSub bytes n => BigEndian.sub? bytes n.toNat
  | _, newMask f length => (HostMask.of f length.toNat).map HostMask.octets
  | _, maskSize m => m.length
  | _, boundary m => m.boundary?
  | _, largest b => b.max
  | _, permits m a => m.Permits a
  | _, step d m a => m.step d a
  | _, jumpUp m a n => m.add a n.toNat
  | _, jumpDown m a n => m.sub a n.toNat
  | _, masked a n k => (Block.of a n.toNat k.toNat).outcome.map Block.layout
  | _, containing a n => (Block.containing a n.toNat).outcome.map Block.layout
  | _, moved b a n => (b.moved a n.toNat).outcome.map Block.layout
  | _, netmask b => b.netmask
  | _, wildcard b => b.wildcard
  | _, broadcast b => b.broadcast
  | _, first b => b.first
  | _, last b => b.last
  | _, count b => b.count
  | _, contains b a => b.Contains a
  | _, controls b a => b.Controls a
  | _, encloses b c => b.Encloses c
  | _, containsAny b a => b.Contains a
  | _, enclosesAny b c => b.Encloses c
  | _, next b a => b.next a
  | _, previous b a => b.previous a
  | _, supernet b n => (b.supernet n.toNat).outcome.map Block.layout
  | _, nextBlock b n => (b.nextBlock n.toNat).outcome.map Block.layout
  | _, previousBlock b n => (b.previousBlock n.toNat).outcome.map Block.layout
  | _, list b offset size => (b.list offset.toNat size.toNat).cursor
  | _, pop l _ => (l.pop.1, l.pop.2.cursor)
  | _, sizeHint l _ => l.sizeHint
  | _, subnets b n => (b.subnets n.toNat).outcome.map Subnets.row
  | _, popBlock s => (s.pop.value.1.map Block.layout, s.pop.value.2.row)
  | _, findBetween a c =>
    (Range.findBetween a c).outcome.map fun found => (found.1.layout, found.2)
  | _, coverRange a c => (Range.coverRange a c).outcome.map (List.map AnyBlock.layout)

/-- Every operation, whatever it is given, comes to its answer without a fault. -/
theorem runs_without_fault {α : Type} (op : Operation α) : op.run = .ok op.answer := by
  cases op with
  | clearAfter a n => exact Machine.clearAfter_eq a n.toNat
  | setAfter a n => exact Machine.setAfter_eq a n.toNat
  | setOctet a index value => exact Machine.setOctet_eq a index.toNat value
  | addTo a n => exact congrArg Except.ok (Machine.addTo_eq a n.toNat)
  | subFrom a n => exact congrArg Except.ok (Machine.subFrom_eq a n.toNat)
  | digitAdd mask value n => exact Machine.digitAdd_eq mask value n.toNat
  | digitSub mask value n => exact Machine.digitSub_eq mask value n.isLt
  | bytesAdd bytes n => exact Machine.bytesAdd_eq bytes n.toNat
  | bytesSub bytes n => exact Machine.bytesSub_eq bytes n.toNat
  | newMask f length => exact Machine.newMask_eq f length.toNat
  | maskSize m => exact Machine.maskSize_eq m
  | boundary m => exact Machine.boundary?_eq m
  | largest b => exact Machine.largest_eq b
  | permits m a => exact Machine.permits_eq m a
  | step d m a => exact Machine.step_eq d m a
  | jumpUp m a n => exact Machine.jumpUp_eq m a n.toNat
  | jumpDown m a n => exact Machine.jumpDown_eq m a n.isLt
  | masked a n k => exact Machine.masked_eq a n.toNat k.toNat
  | containing a n => exact Machine.containing_eq a n.toNat
  | moved b a n => exact Machine.moved_eq b a n.toNat
  | netmask b => exact Machine.netmask_eq b
  | wildcard b => exact Machine.wildcard_eq b
  | broadcast b => exact Machine.broadcast_eq b
  | first b => exact Machine.first_eq b
  | last b => exact Machine.last_eq b
  | count b => exact Machine.count_eq b
  | contains b a => exact Machine.contains_eq b a
  | controls b a => exact Machine.controls_eq b a
  | encloses b c => exact Machine.encloses_eq b c
  | containsAny b a => exact Machine.containsAny_eq b a
  | enclosesAny b c => exact Machine.enclosesAny_eq b c
  | next b a => exact Machine.next_eq b a
  | previous b a => exact Machine.previous_eq b a
  | supernet b n => exact Machine.supernet_eq b n.toNat
  | nextBlock b n => exact Machine.nextBlock_eq b n.toNat
  | previousBlock b n => exact Machine.previousBlock_eq b n.toNat
  | list b offset size => exact Machine.list_eq b offset.toNat size.toNat
  | pop l h => exact Machine.pop_eq l
  | sizeHint l h => exact Machine.sizeHint_eq h
  | subnets b n => exact Machine.subnets_eq b n.toNat
  | popBlock s => exact Machine.popBlock_eq s
  | findBetween a c => exact Machine.findBetween_eq a c
  | coverRange a c => exact Machine.coverRange_eq a c

end Operation

end IpSpace
