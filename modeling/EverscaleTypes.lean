import EverscaleTypes.Cell.Bits
import EverscaleTypes.Cell.Basic
import EverscaleTypes.Cell.Codec
import EverscaleTypes.Cell.StoreEffect
import EverscaleTypes.Cell.Descriptor
import EverscaleTypes.Cell.CellContext
import EverscaleTypes.Cell.HashBuffer
import EverscaleTypes.Cell.HashTable
import EverscaleTypes.Cell.Validation
import EverscaleTypes.Cell.HashInput
import EverscaleTypes.Num.VarUint
import EverscaleTypes.Num.VarUint248
import EverscaleTypes.Num.SmallUint
import EverscaleTypes.Num.Checked
import EverscaleTypes.Models.Message.Address
import EverscaleTypes.Models.Message.AddressDecoding
import EverscaleTypes.Models.Message.AddressKey
import EverscaleTypes.Models.Vm.OutActions
import EverscaleTypes.Models.Vm.RevIter
import EverscaleTypes.Models.Message.AddressText
import EverscaleTypes.Models.Message.AnycastText
import EverscaleTypes.Models.Message.AddressParse
import EverscaleTypes.Num.Text
import EverscaleTypes.Dict.Aug
import EverscaleTypes.Cell.HashBounds
import EverscaleTypes.Boc.Tag
