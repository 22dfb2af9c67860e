import Cab403.Car.Record
import Cab403.Lib.Monitor

/-!
# The internal controls

`internal.c` from the point where the record is mapped: one operation, given as a string. The
first five set flags. `up` and `down` check that the car may be moved by hand, read the current
floor, take its number into a `uint8_t`, move that by one, and write a destination floor. None of
what they read is read under the lock; each write is a locked section of its own.

How `operation` and `status` are compared is a parameter (`Compare`).
-/

namespace Cab403
namespace Car

open Lib

abbrev Program := Code Unit CarSharedMem

/-- `fprintf(stderr, …); return EXIT_FAILURE;` -/
def refuse (message : String) : Program := .print message (.exit false)

/-- The pattern of most writes: lock, write, signal, unlock. -/
def writeLocked (f : CarSharedMem → CarSharedMem) (next : Program) : Program :=
  .lock (.store f (.signal () (.unlock next)))

/-- The write to the destination floor that ends both `up` and `down`. -/
def writeNextFloor (B : Bool) (nextLvl : UInt8) : Program :=
  let nextFloor := decimal nextLvl.toNat
  if B then
    .lock (.store (·.storeDestination "B".toList)
      (.store (fun m => m.storeDestination (m.destinationFloor ++ nextFloor))
        (.signal () (.unlock (.exit true)))))
  else writeLocked (·.storeDestination nextFloor) (.exit true)

/-- From the level and the `B` of the current floor on. -/
def moveFrom (eq : Compare) (operation : CString) (B : Bool) (lvl : UInt8) : Program :=
  if eq operation "up".toList then
    let nextLvl := if B then lvl - 1 else lvl + 1
    if nextLvl = 0 then
      writeLocked (·.storeDestination "1".toList) (writeNextFloor B nextLvl)
    else if nextLvl.toNat > 999 then refuse "\nCar cannot rise above highest floor.\n"
    else writeNextFloor B nextLvl
  else if eq operation "down".toList then
    let nextLvl := if B then lvl + 1 else lvl - 1
    if nextLvl = 0 then
      writeLocked (·.storeDestination "B1".toList) (writeNextFloor B nextLvl)
    else if nextLvl.toNat > 99 then refuse "\nCar cannot fall below lowest floor.\n"
    else writeNextFloor B nextLvl
  else writeNextFloor B lvl

/-- `next_lvl = atoi(…)`: the number after the `B`, if there is one, into a `uint8_t`. -/
def readLevel (B : Bool) (m : CarSharedMem) : UInt8 :=
  UInt8.ofInt (atoi (if B then m.currentFloor.drop 1 else m.currentFloor))

/-- `if (car->data->status == str) { fprintf(stderr, …); return EXIT_FAILURE; }` -/
def refuseAt (eq : Compare) (str : CString) (message : String) (next : Program) : Program :=
  .load fun m => if eq m.status str then refuse message else next

/-- The branch of `up` and `down`. Each operand of `||` reads the status anew. -/
def moveFloor (eq : Compare) (operation : CString) : Program :=
  .load fun m =>
  if m.individualServiceMode ≠ 1 then refuse "\nOperation only allowed in service mode.\n"
  else
    refuseAt eq strOpen "\nOperation not allowed while doors are open.\n"
      (refuseAt eq strOpening "\nOperation not allowed while doors are open.\n"
        (refuseAt eq strClosing "\nOperation not allowed while doors are open.\n"
          (refuseAt eq strBetween "\nOperation not allowed while elevator is moving.\n"
            (.load fun m =>
            let B := m.currentFloor.head? == some 'B'
            .load fun m => moveFrom eq operation B (readLevel B m)))))

/-- `main` of `internal.c`. -/
def internal (eq : Compare) (operation : CString) : Program :=
  if eq operation "open".toList then
    writeLocked (fun m => { m with openButton := 1 }) (.exit true)
  else if eq operation "close".toList then
    writeLocked (fun m => { m with closeButton := 1 }) (.exit true)
  else if eq operation "stop".toList then
    writeLocked (fun m => { m with emergencyStop := 1 }) (.exit true)
  else if eq operation "service_on".toList then
    .lock (.store (fun m => { m with individualServiceMode := 1 })
      (.store (fun m => { m with emergencyMode := 0 })
        (.signal () (.unlock (.exit true)))))
  else if eq operation "service_off".toList then
    writeLocked (fun m => { m with individualServiceMode := 0 }) (.exit true)
  else if eq operation "up".toList || eq operation "down".toList then moveFloor eq operation
  else refuse "\nInvalid operation.\n"

/-- With the comparison as it is written, no operation is any of the seven. -/
theorem internal_addrEq (operation : CString) :
    internal addrEq operation = refuse "\nInvalid operation.\n" :=
  rfl

end Car
end Cab403
