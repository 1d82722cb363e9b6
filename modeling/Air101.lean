import Air101.Ble.Passthrough
import Air101.Ble.Queue
import Air101.BleWifi.Cipher
import Air101.BleWifi.Reassembly
import Air101.BleWifi.Resend
import Air101.BleWifi.Robust
import Air101.BleWifi.Tlv
import Air101.Bond.Bounds
import Air101.Bond.Restart
import Air101.Crypto.Digest
import Air101.Crypto.Exptmod
import Air101.Dma.Channels
import Air101.Efuse.Failure
import Air101.Fls.Adapters
import Air101.Fls.Otp
import Air101.Fls.Range
import Air101.Fls.Sessions
import Air101.Fota.Bounds
import Air101.Fota.Chunks
import Air101.Fota.Restart
import Air101.Fwup.Checksum
import Air101.Fwup.Isolation
import Air101.Hspi.Transmit
import Air101.I2s.Transmit
import Air101.Mcu.Tick64
import Air101.Param.Checksum
import Air101.Param.Fields
import Air101.Param.Load
import Air101.Param.PowerCut
import Air101.Pwm.Cache
import Air101.Spi.DmaReport
import Air101.Spi.Queue
import Air101.Spifls.Write
import Air101.Task.Delivery
import Air101.Task.Fetch
import Air101.Task.Timeouts
import Air101.Timer.Isolation
import Air101.Tool.Pack
import Air101.Tool.Xmodem
import Air101.Uart.Baud
import Air101.Uart.Escape
import Air101.Uart.Receive
import Air101.Uart.Transmit
import Air101.Maptool.Conserve
import Air101.Maptool.Subtree
import Air101.Utils.Crc8
import Air101.Utils.Ip
import Air101.Utils.Strings
import Air101.Wlan.Mac
import Air101.Storage.LuaNumber
import Air101.Partition.Layout
import Air101.Heap.Refinement
import Air101.Lfs.Device
import Air101.Libc.RoundTrip
import Air101.Libc.ScanSet
import Air101.Utils.Ipaddr
import Air101.Utils.Hex
import Air101.Rtos.Runs
import Air101.Rtos.Sleep
import Air101.Rtos.TimeOut
