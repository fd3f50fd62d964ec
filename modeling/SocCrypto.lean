import SocCrypto.Clocked
import SocCrypto.Rsa.System
import SocCrypto.Aes.Memory
import SocCrypto.Sha256Function
import SocCrypto.HexText
import SocCrypto.Soft.KeyText
import SocCrypto.Soft.CharBuffer
import SocCrypto.Rsa.Mul1024bit
import SocCrypto.Soft.Sha256
import SocCrypto.Soft.Receiver
import SocCrypto.Soft.Padding
import SocCrypto.Soft.Message
import SocCrypto.Soft.UnpackBounds
import SocCrypto.Soft.AesTransfer
import SocCrypto.Dma.ReadPath
import SocCrypto.Dma.WriteMaster
import SocCrypto.Dma.Reprogram
import SocCrypto.Dma.Window
import SocCrypto.Rsa.Controller
import SocCrypto.Rsa.OperandRead
import SocCrypto.Rsa.Restart
import SocCrypto.Rsa.Transfer
import SocCrypto.Rsa.Mod2048
import SocCrypto.Rsa.MonPro1024
import SocCrypto.Rsa.Exponentiation
import SocCrypto.Rsa.MonModInverse1024
import SocCrypto.Rsa.Units
import SocCrypto.Rsa.ClockCrossing
import SocCrypto.Sha.ReadStream
import SocCrypto.Sha.Prompt
import SocCrypto.Sha.Printed
import SocCrypto.Sha.EndToEnd
import SocCrypto.Sha.Padding
import SocCrypto.Reprogram
import SocCrypto.Aes.Decrypt
import SocCrypto.Aes.OutputOrder
import SocCrypto.Aes.KeyLoad
import SocCrypto.Aes.KeyReload
import SocCrypto.Aes.EndToEnd
import SocCrypto.Uart.Control
import SocCrypto.Uart.Receive
import SocCrypto.Uart.Accept
import SocCrypto.Uart.Break
import SocCrypto.Uart.Timeout
import SocCrypto.Uart.Link
import SocCrypto.I2c.RegisterAccess
